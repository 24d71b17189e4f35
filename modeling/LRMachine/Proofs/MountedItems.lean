import LRMachine.Proofs.Mounting
import LRMachine.Proofs.Overflow

/-!
# Mounted items and the bases of nested grammars

A suspended grammar keeps the number of items at the entry of the nested one, its base, and the way
out subtracts the base from the items. The items stay above all bases as long as no token is
consumed inside a nested grammar together with items from in front of it: the items of a finished
grammar wait for its placeholder, and where the host enters another grammar before the placeholder
is consumed, that grammar reaches below its own base (`Overreaches`). `bases_le_items_iff` says that
nothing else can go wrong: up to the first such token the items cover all bases and every way out
succeeds, and this token is where they cease to. The tables `relay` lead there.
-/

namespace LRMachine

/-- The frames above the base frame stand no more than one item below the floor. -/
def Level.StandsOn (l : Level) (floor : Nat) : Prop := ∀ f ∈ l.stack.above, floor ≤ f.base + 1

/-- The bases of the suspended grammars ascend inwards to the floor of the innermost grammar, and
the frames of each stand on its own floor. -/
inductive Founded : List Suspension → Nat → Prop where
  | outermost : Founded [] 0
  | inner {s : Suspension} {outer : List Suspension} {floor : Nat} (host : Founded outer floor)
    (frames : s.host.StandsOn floor) (base : floor ≤ s.base) : Founded (s :: outer) s.base

theorem Founded.base_le {suspended : List Suspension} {floor : Nat} (h : Founded suspended floor) :
    ∀ s ∈ suspended, s.base ≤ floor := by
  induction h with
  | outermost => simp
  | inner _ _ hbase ih =>
    exact List.forall_mem_cons.mpr ⟨Nat.le_refl _, fun s hs => Nat.le_trans (ih s hs) hbase⟩

namespace Parse

variable {t : Tables} {o : Options} {u : User} {token : Token} {p q : Parse}

/-- The items cover the bases of all suspended grammars. -/
def Covers (p : Parse) : Prop := ∀ s ∈ p.suspended, s.base ≤ p.items

/-- The newest event of `q` is a consumed token that `p` has not reported yet. -/
def Consumes (p q : Parse) : Prop :=
  p.log.length < q.log.length ∧ ∃ e, q.log.head? = some (.shift e)

/-- The newest event of `q` is the consumed token `e`, which `p` has not reported yet. -/
def Shifts (p q : Parse) (e : ShiftEvent) : Prop :=
  p.log.length < q.log.length ∧ q.log.head? = some (.shift e)

/-- Behind `p` nothing was reported, or a reduction. -/
def Unshifted (p q : Parse) : Prop := q.log = p.log ∨ ∃ e, q.log = .reduce e :: p.log

/-- A token is consumed, and the items that are mounted for it begin two or more below the base of
the grammar that consumes it. -/
def Overreaches (p q : Parse) : Prop := Consumes p q ∧ p.shiftBase + 1 < p.floor

/-- The items, the frames and the bases of all levels stand on each other. -/
structure Grounded (p : Parse) : Prop where
  founded : Founded p.suspended p.floor
  active : p.active.StandsOn p.floor
  floor_le : p.floor ≤ p.items

theorem Grounded.covers (h : p.Grounded) : p.Covers :=
  fun s hs => Nat.le_trans (h.founded.base_le s hs) h.floor_le

theorem grounded_new (t : Tables) (o : Options) : (new t o).Grounded where
  founded := .outermost
  active f hf := by cases hf
  floor_le := Nat.le_refl _

/-! ## Changes -/

theorem Grounded.raised (h : p.Grounded) {f : Frame} (hf : p.floor ≤ f.base + 1) :
    (p.raised f).Grounded :=
  ⟨h.founded, List.forall_mem_cons.mpr ⟨hf, h.active⟩, h.floor_le⟩

theorem Grounded.entered (h : p.Grounded) (g : Nested Tables) (start : Nat) :
    (p.entered g start).Grounded where
  founded := .inner h.founded h.active h.floor_le
  active f hf := by cases hf
  floor_le := Nat.le_refl _

theorem Grounded.lands (h : q.Grounded) {f : Frame} {start : Nat} {made : Step} {r : Result}
    (l : Lands q f start made r) (hf : q.floor ≤ f.base + 1) : r.parse.Grounded := by
  cases l with
  | full => exact h
  | rests => exact h.raised hf
  | enters => exact (h.raised hf).entered _ _

/-- The frame that a reduction stands on is no more than one item below the floor. -/
theorem Grounded.floor_le_lowest (h : p.Grounded) {r : Reduction} {skipped : Bool} {lowest : Frame}
    {stack : Stack} (hl : Stands p r skipped lowest stack) : p.floor ≤ lowest.base + 1 := by
  cases hl with
  | empty =>
    unfold emptyFrame
    split
    · exact Nat.le_succ_of_le h.floor_le
    · exact Nat.le_succ_of_le (Nat.le_max_right _ _)
  | popped _ hf => exact h.active lowest (List.mem_of_getElem? hf)

theorem Grounded.reduced (h : p.Grounded) {r : Reduction} {skipped : Bool} {lowest : Frame}
    {stack : Stack} (hl : Stands p r skipped lowest stack) :
    ((p.withStack stack).reduced (p.reduceEvent r skipped lowest) lowest).Grounded where
  founded := h.founded
  active f hf := h.active f (hl.above_subset hf)
  floor_le := Nat.le_trans (h.floor_le_lowest hl) (Nat.le_add_right _ _)

theorem floor_eq_of_founded {floor : Nat} (h : Founded p.suspended floor) : p.floor = floor := by
  unfold Parse.floor
  generalize p.suspended = suspended at h
  cases h <;> rfl

theorem Grounded.left (h : p.Grounded) {entry innermost : Suspension} {outer : List Suspension}
    (hs : p.suspended = innermost :: outer) : (p.left entry innermost.host outer).Grounded := by
  obtain ⟨hfounded, -, hle⟩ := h
  rw [hs] at hfounded
  generalize p.floor = base at hfounded hle
  cases hfounded with
  | inner host frames hbase =>
    have hfloor := floor_eq_of_founded (p := p.left entry innermost.host outer) host
    exact ⟨hfloor ▸ host, hfloor ▸ frames, hfloor ▸ Nat.le_trans hbase hle⟩

/-! ## Consumed tokens -/

theorem Shifts.consumes {e : ShiftEvent} (h : Shifts p q e) : Consumes p q := ⟨h.1, e, h.2⟩

theorem shifts_of_log_eq {e : ShiftEvent} (h : q.log = .shift e :: p.log) : Shifts p q e :=
  ⟨by simp [h], by simp [h]⟩

theorem Shifts.of_recovered {d : Diagnostic} {e : ShiftEvent} (h : Shifts (p.recovered d) q e) :
    Shifts p q e := ⟨Nat.lt_of_succ_lt h.1, h.2⟩

theorem not_consumes_of_log_eq (h : q.log = p.log) : ¬ Consumes p q := by
  rintro ⟨hlt, -⟩
  rw [h] at hlt
  exact Nat.lt_irrefl _ hlt

theorem Unshifted.not_consumes (h : Unshifted p q) : ¬ Consumes p q := by
  rcases h with h | ⟨e, h⟩
  · exact not_consumes_of_log_eq h
  · rintro ⟨-, e', hhead⟩
    simp [h] at hhead

/-- The newest event is the diagnostic of the recovery, or a reduction. -/
theorem Unshifted.not_consumes_of_recovered {d : Diagnostic} (h : Unshifted (p.recovered d) q) :
    ¬ Consumes p q := by
  rintro ⟨-, e', hhead⟩
  rcases h with h | ⟨e, h⟩
  · simp [h, recovered] at hhead
  · simp [h] at hhead

/-- An action that consumes has the items behind the mounted ones, and keeps the parse grounded if
they reach up to the floor; any other action reports no shift and keeps it grounded. -/
theorem Grounded.applies (h : p.Grounded) {term : Term} {a : Action} {r : Result}
    (happlies : Applies term token p a r) :
    (∃ e, r.parse.log = .shift e :: p.log ∧ r.parse.items = p.shiftBase + 1 ∧
      (p.floor ≤ p.shiftBase + 1 → r.parse.Grounded)) ∨
    Unshifted p r.parse ∧ r.parse.Grounded := by
  cases happlies with
  | unspanned => exact .inr ⟨.inl rfl, h⟩
  | shift _ _ _ lands =>
    refine .inl ⟨_, lands.log_eq, lands.items_eq, fun hreach => ?_⟩
    exact Grounded.lands (q := p.consumed _ _ _) ⟨h.founded, h.active, hreach⟩ lands hreach
  | push _ lands =>
    exact .inr ⟨.inl lands.log_eq, h.lands lands (Nat.le_succ_of_le h.floor_le)⟩
  | skip => exact .inl ⟨_, rfl, rfl, fun hreach => ⟨h.founded, h.active, hreach⟩⟩
  | reduce _ reduces =>
    cases reduces with
    | underflow => exact .inr ⟨.inl rfl, h⟩
    | uncounted => exact .inr ⟨.inl rfl, h⟩
    | missing hl =>
      exact .inr ⟨.inl rfl, h.founded, fun f hf => h.active f (hl.above_subset hf), h.floor_le⟩
    | stays hl => exact .inr ⟨.inr ⟨_, rfl⟩, h.reduced hl⟩
    | goes hl _ _ _ lands =>
      have hlowest := h.floor_le_lowest hl
      exact .inr ⟨.inr ⟨_, lands.log_eq⟩, (h.reduced hl).lands lands hlowest⟩

theorem Grounded.outcome (h : p.Grounded) {r : Result} (hout : Outcome token p r) :
    (Consumes p r.parse ∧ r.parse.items = p.shiftBase + 1 ∧
      (p.floor ≤ p.shiftBase + 1 → r.parse.Grounded)) ∨
    ¬ Consumes p r.parse ∧ r.parse.Grounded := by
  cases hout with
  | finished => exact .inr ⟨not_consumes_of_log_eq rfl, h⟩
  | mismatched => exact .inr ⟨not_consumes_of_log_eq rfl, h⟩
  | accepted =>
    show _ ∨ ¬ Consumes p (if p.suspended.isEmpty then p.closed else p) ∧
      Grounded (if p.suspended.isEmpty then p.closed else p)
    right
    split
    · exact ⟨not_consumes_of_log_eq rfl, h.founded, h.active, h.floor_le⟩
    · exact ⟨not_consumes_of_log_eq rfl, h⟩
  | resolved _ _ _ applies =>
    rcases h.applies applies with ⟨e, hlog, hkept⟩ | ⟨hlog, hgrounded⟩
    · exact .inl ⟨(shifts_of_log_eq hlog).consumes, hkept⟩
    · exact .inr ⟨hlog.not_consumes, hgrounded⟩
  | @recovered m a _ _ _ _ _ _ applies =>
    have hrecovered : (p.recovered ⟨m, a.consumes⟩).Grounded := ⟨h.founded, h.active, h.floor_le⟩
    rcases hrecovered.applies applies with ⟨e, hlog, hkept⟩ | ⟨hlog, hgrounded⟩
    · exact .inl ⟨(shifts_of_log_eq hlog).of_recovered.consumes, hkept⟩
    · exact .inr ⟨hlog.not_consumes_of_recovered, hgrounded⟩

/-! ## Runs -/

/-- The points that the user's runs come to before any token overreaches. -/
def Steady (t : Tables) (o : Options) (u : User) (x : Point) : Prop :=
  Relation.ReflTransGen (fun y z => Move u y z ∧ ¬ Overreaches y.parse z.parse)
    ⟨.idle, new t o⟩ x

theorem Steady.visited {x : Point} (h : Steady t o u x) : Visited t o u x :=
  Relation.ReflTransGen.mono (fun _ _ hmove => hmove.1) _ _ h

/-- The nested grammar that a call closes is still suspended. -/
def Task.Holds (p : Parse) : Task → Prop
  | .driving _ entry => entry ∈ p.suspended
  | .leaving _ entry => entry ∈ p.suspended
  | _ => True

theorem Task.Holds.after {task : Task} (h : task.Holds p) (made : Step)
    (hsuffix : p.suspended <:+ q.suspended) : (task.after made).Holds q := by
  cases task with
  | driving token entry =>
    show (if made == .accepted then Task.leaving token entry else .driving token entry).Holds q
    split
    · exact hsuffix.subset h
    · exact hsuffix.subset h
  | mounting token entry =>
    show (if made.consumed then Task.opening token else .mounting token entry).Holds q
    split <;> trivial
  | feeding token =>
    show (if settles token made then Task.idle else .feeding token).Holds q
    split <;> trivial
  | leaving token entry => exact hsuffix.subset h
  | _ => trivial

theorem Visited.holds (hv : t.Valid) {x : Point} (h : Visited t o u x) :
    x.task.Holds x.parse := by
  induction h with
  | refl => trivial
  | @tail y z hpath hmove ih =>
    cases hmove with
    | close hs =>
      rw [Task.Holds, hs]
      exact List.mem_cons_self
    | made _ _ hr =>
      have hout := ((Visited.sound hv hpath).step hv hr).1
      exact ih.after _ hout.entersAtMost.suspended_suffix
    | _ => trivial

theorem Steady.grounded (hv : t.Valid) {x : Point} (h : Steady t o u x) :
    x.parse.Grounded ∧ x.task.Holds x.parse := by
  refine ⟨?_, h.visited.holds hv⟩
  induction h with
  | refl => exact grounded_new t o
  | @tail y z hpath hmove hgrounded =>
    obtain ⟨hmove, hsteady⟩ := hmove
    have hsound := Visited.sound hv (Steady.visited hpath)
    have hstep : ∀ {token} {r : Result}, z.parse = r.parse → step token y.parse = r →
        r.parse.Grounded := by
      intro token r hz hr
      rcases hgrounded.outcome (hsound.step hv hr).1 with ⟨hconsumes, -, hkept⟩ | ⟨-, hkept⟩
      · exact hkept (Nat.le_of_not_lt fun hlt => hsteady ⟨hz ▸ hconsumes, hlt⟩)
      · exact hkept
    cases hmove with
    | made _ _ hr => exact hstep rfl hr
    | failed _ _ _ hr => exact hstep rfl hr
    | left hleave =>
      rcases leave_eq_ok hleave with ⟨-, rfl⟩ | ⟨innermost, outer, hs, -, rfl⟩
      · exact hgrounded
      · exact hgrounded.left hs
    | _ => exact hgrounded

/-- A move that does not overreach keeps all bases covered. One that does leaves fewer items than
the innermost base. -/
theorem Steady.covers_iff (hv : t.Valid) {x y : Point} (hx : Steady t o u x) (h : Move u x y) :
    y.parse.Covers ↔ ¬ Overreaches x.parse y.parse := by
  constructor
  · rintro hcovers ⟨hconsumes, hlt⟩
    obtain ⟨hgrounded, -⟩ := hx.grounded hv
    have hsound := Visited.sound hv hx.visited
    have hstep : ∀ {token} {r : Result}, y.parse = r.parse → step token x.parse = r → False := by
      intro token r hy hr
      have hout := (hsound.step hv hr).1
      rw [hy] at hcovers hconsumes
      rcases hgrounded.outcome hout with ⟨-, hitems, -⟩ | ⟨hkeeps, -⟩
      · -- the floor is the base of a grammar that is still suspended
        unfold floor at hlt
        split at hlt
        · omega
        · rename_i s outer hs
          have hmem : s ∈ r.parse.suspended :=
            hout.entersAtMost.suspended_suffix.subset (by rw [hs]; exact List.mem_cons_self)
          have hbase := hcovers s hmem
          omega
      · exact hkeeps hconsumes
    cases h with
    | made _ _ hr => exact hstep rfl hr
    | failed _ _ _ hr => exact hstep rfl hr
    | left hleave =>
      refine not_consumes_of_log_eq ?_ hconsumes
      rcases leave_eq_ok hleave with ⟨-, rfl⟩ | ⟨innermost, outer, -, -, rfl⟩ <;> rfl
    | _ => exact not_consumes_of_log_eq rfl hconsumes
  · intro hsteady
    exact (Steady.grounded hv (Relation.ReflTransGen.tail hx ⟨h, hsteady⟩)).1.covers

/-- Over valid tables and until a token overreaches, the items cover the bases of all suspended
grammars and every way out of a nested grammar succeeds; and the items cease to cover the bases
exactly with the first token that overreaches. -/
theorem covers_iff_not_overreaches (hv : t.Valid) (o : Options) (u : User) {x : Point}
    (hx : Steady t o u x) :
    x.parse.Covers ∧
    (∀ token entry, x.task = .leaving token entry → ∃ q, leave entry x.parse = .ok () q) ∧
    ∀ y, Move u x y → (y.parse.Covers ↔ ¬ Overreaches x.parse y.parse) := by
  obtain ⟨hgrounded, htask⟩ := hx.grounded hv
  refine ⟨hgrounded.covers, fun token entry hleaving => ?_, fun y => hx.covers_iff hv⟩
  rw [hleaving] at htask
  have hbase := hgrounded.covers entry htask
  rw [run_leave]
  split
  · exact ⟨_, rfl⟩
  · rw [if_neg (by omega)]
    exact ⟨_, rfl⟩

/-- A run that is past a token which overreaches has a first such token. -/
theorem Visited.steady_or {x : Point} (h : Visited t o u x) :
    Steady t o u x ∨ ∃ y z, Steady t o u y ∧ Move u y z ∧ Overreaches y.parse z.parse ∧
      Path u z x := by
  induction h with
  | refl => exact .inl .refl
  | @tail y z _ hmove ih =>
    rcases ih with hsteady | ⟨v, w, hv, hvw, hover, hpath⟩
    · by_cases hover : Overreaches y.parse z.parse
      · exact .inr ⟨y, z, hsteady, hmove, hover, .refl⟩
      · exact .inl (Relation.ReflTransGen.tail hsteady ⟨hmove, hover⟩)
    · exact .inr ⟨v, w, hv, hvw, hover, hpath.tail hmove⟩

/-- A whole parse of tokens that end within 64 bits overflows only behind a token that
overreaches. -/
theorem exists_overreach_of_parse (hv : t.Valid) {fuel : Nat} {tokens : List Token}
    (htokens : ∀ token ∈ tokens, token.stop?.isSome = true)
    (h : parse fuel t tokens o = .error .overflow q) :
    ∃ y z token entry, Steady t o .inRange y ∧ Move .inRange y z ∧ Overreaches y.parse z.parse ∧
      Path .inRange z ⟨.leaving token entry, q⟩ := by
  obtain ⟨token, entry, hvisited, hlacks⟩ := lacksItems_of_parse hv htokens h
  rcases hvisited.steady_or with hsteady | ⟨y, z, hy, hyz, hover, hpath⟩
  · obtain ⟨hgrounded, hentry⟩ := hsteady.grounded hv
    have hbase := hgrounded.covers entry hentry
    exact absurd hlacks (Nat.not_lt.mpr hbase)
  · exact ⟨y, z, token, entry, hy, hyz, hover, hpath⟩

/-! ## A grammar that is entered over mounted items -/

/-- An opening 3 starts a grammar of words; behind its placeholder 7 another grammar starts before
the 7 is consumed, and reads it. -/
def relay : Tables :=
  let inner : Tables :=
    { start := 0, states := #[2, 0, 0], actions := #[7, 0, 4, 0xffff], gotos := #[0xffff]
      specializations := #[], nested := [], names := [] }
  { start := 0, states := #[0, 0, 0, 4, 4, 0, 1028, 8, 0, 2, 12, 0]
    actions := #[3, 1, 0, 0xffff, 7, 2, 2, 0xffff, 11, 3, 0, 0xffff, 0xffff], gotos := #[0xffff]
    specializations := #[], nested := [⟨"words", words, 5, 7⟩, ⟨"inner", inner, 5, 11⟩]
    names := [] }

theorem relay_valid : relay.Valid := by
  refine .intro rfl fun g hg => ?_
  rcases List.mem_cons.mp hg with rfl | hg
  · exact .intro rfl (by simp [words])
  · obtain rfl := List.mem_singleton.mp hg
    exact .intro rfl (by simp)

/-- An opening 3 and two words. -/
def relayed : List Token := [⟨3, 0, 1⟩, ⟨9, 1, 1⟩, ⟨9, 2, 1⟩]

theorem relayed_inRange : ∀ token ∈ relayed, token.stop?.isSome = true := by decide

theorem parse_relayed : ∃ q, parse 10 relay relayed {} = .error .overflow q ∧
    q.suspended.any (fun s => decide (q.items < s.base)) = true := by
  have hends : (match parse 10 relay relayed {} with
      | .error .overflow q => q.suspended.any fun s => q.items < s.base
      | .error .exhausted _ => false
      | .error (.error _) _ => false
      | .ok _ _ => false) = true := by decide +kernel
  split at hends
  · rename_i q hrun
    exact ⟨q, hrun, hends⟩
  · cases hends
  · cases hends
  · cases hends

/-- The 7 adopts both words, which lie in front of the entry of the grammar that reads it. The step
that consumes it is the first one behind which a base is not covered. -/
theorem covers_iff_not_overreaches_relay :
    relay.Valid ∧ ∃ x y, Steady relay {} .inRange x ∧ x.parse.Covers ∧ Move .inRange x y ∧
      Overreaches x.parse y.parse ∧ ¬ y.parse.Covers := by
  obtain ⟨q, hrun, -⟩ := parse_relayed
  obtain ⟨x, y, -, -, hx, hxy, hover, -⟩ :=
    exists_overreach_of_parse relay_valid relayed_inRange hrun
  obtain ⟨hcovers, -, hiff⟩ := covers_iff_not_overreaches relay_valid {} .inRange hx
  exact ⟨relay_valid, x, y, hx, hcovers, hxy, hover, fun hy => (hiff y hxy).mp hy hover⟩

/-- Behind that step the way out of the grammar overflows, as fewer items are left than at its
entry. -/
theorem not_covers_relay :
    relay.Valid ∧ (∀ token ∈ relayed, token.stop?.isSome = true) ∧
      ∃ q, parse 10 relay relayed {} = .error .overflow q ∧ ¬ q.Covers := by
  obtain ⟨q, hrun, hlacks⟩ := parse_relayed
  refine ⟨relay_valid, relayed_inRange, q, hrun, fun hcovers => ?_⟩
  obtain ⟨s, hs, hlt⟩ := List.any_eq_true.mp hlacks
  have hbase := hcovers s hs
  have hlt := of_decide_eq_true hlt
  omega

end Parse

end LRMachine
