import LRMachine.Proofs.Conditions
import LRMachine.Proofs.Pending
import LRMachine.Proofs.Runs

/-!
# The counts of a host and its nested grammars

The host and a nested grammar share one list of pending items and one set of counters. This module
says what the counters and the frames of both levels have to do with the list (`Parse.Balanced`) and
that a step keeps it, whatever it comes to (`Outcome.settles`). The items below the floor, which the
host had pending at the entry, stay as they are.

An empty reduction stands in front of the skipped items at the end. It must not get below a frame
there, so either there is no such reduction or skipped items carry no frames (`Tables.Orderly`).
-/

namespace LRMachine

/-! ## Places of frames -/

/-- The places of the frames, newest first, descend from `room` to `floor`. -/
def Descends (floor : Nat) : Nat → List Frame → Prop
  | room, [] => floor ≤ room
  | room, f :: older => f.base ≤ room ∧ Descends floor f.base older

theorem Descends.mono {floor room room' : Nat} {frames : List Frame}
    (h : Descends floor room frames) (hr : room ≤ room') : Descends floor room' frames := by
  cases frames with
  | nil => exact Nat.le_trans h hr
  | cons f older => exact ⟨Nat.le_trans h.1 hr, h.2⟩

theorem Descends.floor_le {floor : Nat} :
    ∀ {frames : List Frame} {room : Nat}, Descends floor room frames → floor ≤ room := by
  intro frames
  induction frames with
  | nil => exact fun h => h
  | cons f older ih => exact fun h => Nat.le_trans (ih h.2) h.1

theorem Descends.drop {floor : Nat} :
    ∀ {frames : List Frame} {room n : Nat} {f : Frame}, Descends floor room frames →
      frames[n]? = some f → f.base ≤ room ∧ Descends floor f.base (frames.drop (n + 1)) := by
  intro frames
  induction frames with
  | nil => intro room n f _ hf; simp at hf
  | cons first older ih =>
    intro room n f h hf
    cases n with
    | zero =>
      obtain rfl : first = f := by simpa using hf
      exact h
    | succ n =>
      obtain ⟨hle, hrest⟩ := ih h.2 (by simpa using hf)
      exact ⟨Nat.le_trans hle h.1, by simpa using hrest⟩

/-- The frames above the base frame fit the counters: their places descend from a `room` within the
items, which for flat tables lies in front of the skipped items at the end. -/
def Level.Fits (l : Level) (floor items tail : Nat) : Prop :=
  ∃ room, room ≤ items ∧ (l.tables.Flat → room + tail ≤ items) ∧
    Descends floor room l.stack.above

theorem Level.Fits.floor_le {l : Level} {floor items tail : Nat} (h : l.Fits floor items tail) :
    floor ≤ items := by
  obtain ⟨room, hroom, -, hd⟩ := h
  exact Nat.le_trans hd.floor_le hroom

theorem suffix_drop {α : Type} {old items : List α} (h : old <:+ items) {n : Nat}
    (hn : n + old.length ≤ items.length) : old <:+ items.drop n :=
  List.suffix_of_suffix_length_le h (List.drop_suffix n items) (by rw [List.length_drop]; omega)

namespace Parse

variable {t : Tables} {token : Token} {p q : Parse}

/-- The counters and the frames of all levels agree with the pending nodes. -/
structure Balanced (t : Tables) (p : Parse) : Prop where
  sound : Sound t p
  shallow : p.suspended.length ≤ 1
  running : p.suspended ≠ [] → p.finished = false
  items_eq : p.items = p.pending.length
  mount_le : p.mount ≤ p.items
  fits : p.active.Fits p.floor p.shiftBase p.shiftTail
  hosts_fit : ∀ s ∈ p.suspended, s.host.Fits 0 s.base s.tail
  position_lt : p.position < UInt64.size
  starts_lt : ∀ s ∈ p.suspended, s.start < UInt64.size

/-- What a step on `p` leaves behind: a balanced parse with nothing mounted, in which no grammar is
left and the oldest items, below the floor, are the same. -/
structure Settles (t : Tables) (p q : Parse) : Prop where
  balanced : Balanced t q
  mount_eq : q.mount = 0
  suspended_suffix : p.suspended <:+ q.suspended
  keeps : ∀ {old}, old <:+ p.pending → old.length ≤ p.floor → old <:+ q.pending

theorem balanced_new (hv : t.Valid) (o : Options) : Balanced t (new t o) where
  sound := sound_new hv o
  shallow := Nat.zero_le _
  running h := absurd rfl h
  items_eq := rfl
  mount_le := Nat.le_refl _
  fits := ⟨0, Nat.le_refl _, fun _ => Nat.le_refl _, Nat.le_refl _⟩
  hosts_fit := by simp [new]
  position_lt := by simp [new]
  starts_lt := by simp [new]

theorem Balanced.settles (h : Balanced t p) (hm : p.mount = 0) : Settles t p p :=
  ⟨h, hm, List.suffix_rfl, fun hold _ => hold⟩

theorem Balanced.recovered (h : Balanced t p) (d : Diagnostic) : Balanced t (p.recovered d) where
  sound := h.sound.of_levels_eq rfl rfl
  shallow := h.shallow
  running := h.running
  items_eq := h.items_eq
  mount_le := h.mount_le
  fits := h.fits
  hosts_fit := h.hosts_fit
  position_lt := h.position_lt
  starts_lt := h.starts_lt

theorem Balanced.suspended_eq (h : Balanced t p) {s : Suspension} (hs : s ∈ p.suspended) :
    p.suspended = [s] := by
  have hshallow := h.shallow
  cases hsusp : p.suspended with
  | nil => rw [hsusp] at hs; cases hs
  | cons first outer =>
    rw [hsusp] at hs hshallow
    obtain rfl : outer = [] := by simpa using hshallow
    rw [List.mem_singleton.mp hs]

theorem Balanced.orderly (h : Balanced t p) (hlay : t.Layered) : p.tables.Orderly := by
  rcases h.sound.nesting.host_or_nested h.shallow with
    ⟨-, htables⟩ | ⟨s, d, i, -, htables, -, hd, hi, hg⟩
  · exact htables ▸ hlay.orderly
  · exact htables ▸ (hlay.nested _ _ _ _ hd hi hg).1

theorem Balanced.outermost_of_nestIndex (h : Balanced t p) (hlay : t.Layered) {state : StateId}
    {d : Descriptor} {i : Nat} (hd : p.tables.descriptor state = .ok d)
    (hi : d.nestIndex? = some i) : p.suspended = [] := by
  rcases h.sound.nesting.host_or_nested h.shallow with
    ⟨hnil, -⟩ | ⟨s, e, j, -, htables, -, he, hj, hg⟩
  · exact hnil
  · rw [htables] at hd
    rw [(hlay.nested _ _ _ _ he hj hg).2 _ _ hd] at hi
    cases hi

/-! ## Frames that are put on top -/

theorem Balanced.raised (h : Balanced t p) {f : Frame} (hs : f.state.toNat < p.tables.stateCount)
    (hfits : (p.raised f).active.Fits p.floor p.shiftBase p.shiftTail) :
    Balanced t (p.raised f) where
  sound := h.sound.raised hs
  shallow := h.shallow
  running := h.running
  items_eq := h.items_eq
  mount_le := h.mount_le
  fits := hfits
  hosts_fit := h.hosts_fit
  position_lt := h.position_lt
  starts_lt := h.starts_lt

/-- A nested grammar is entered with all items below its floor. -/
theorem Balanced.entered (h : Balanced t p) (hv : t.Valid) (hlay : t.Layered)
    (hmount : p.mount = 0) (hf : p.finished = false) {d : Descriptor} {i : Nat} {g : Nested Tables}
    (hd : p.tables.descriptor p.state = .ok d) (hi : d.nestIndex? = some i)
    (hg : p.tables.nested[i]? = some g) {start : Nat} (hstart : start < UInt64.size) :
    Balanced t (p.entered g start) := by
  have hnil : p.suspended = [] := h.outermost_of_nestIndex hlay hd hi
  have hfloor : p.floor = 0 := by rw [floor, hnil]
  have hfits := h.fits
  rw [hfloor, shiftBase, shiftTail, hmount] at hfits
  refine ⟨h.sound.entered hv hd hi hg start, ?_, fun _ => hf, h.items_eq, h.mount_le, ?_, ?_,
    h.position_lt, ?_⟩
  · show (_ :: p.suspended).length ≤ 1
    rw [hnil]
    exact Nat.le_refl _
  · refine ⟨p.items, ?_, fun _ => ?_, Nat.le_refl _⟩
    · show p.items ≤ p.items - p.mount
      omega
    · show p.items + (0 - p.mount) ≤ p.items - p.mount
      omega
  · intro s hs
    obtain rfl : s = ⟨p.active, g, start, p.items, p.skippedTail, p.contentEnd⟩ := by
      simpa [Parse.entered, hnil] using hs
    exact hfits
  · intro s hs
    obtain rfl : s = ⟨p.active, g, start, p.items, p.skippedTail, p.contentEnd⟩ := by
      simpa [Parse.entered, hnil] using hs
    exact hstart

theorem Lands.settles {f : Frame} {start : Nat} {made : Step} {r : Result}
    (l : Lands p f start made r) (hv : t.Valid) (hlay : t.Layered) (h : Settles t q p)
    (hraised : Balanced t (p.raised f)) (hf : p.finished = false) (hstart : start < UInt64.size) :
    Settles t q r.parse := by
  cases l with
  | full => exact h
  | rests => exact ⟨hraised, h.mount_eq, h.suspended_suffix, h.keeps⟩
  | enters _ hd hi hg =>
    exact ⟨hraised.entered hv hlay h.mount_eq hf hd hi hg hstart, h.mount_eq,
      h.suspended_suffix.trans (List.suffix_cons _ _), h.keeps⟩

/-! ## Consumed tokens -/

/-- A consumed token takes the mounted items and adds its own above the rest. -/
theorem Balanced.consumed (h : Balanced t p) (term : Term) {span : Span}
    (hspan : span.stop < UInt64.size) (skipped : Bool) :
    Settles t p (p.consumed term span skipped) := by
  have hpending := pending_consumed p term span skipped
  have hmount := h.mount_le
  have hitems := h.items_eq
  refine ⟨⟨h.sound.of_levels_eq rfl rfl, h.shallow, h.running, ?_, Nat.zero_le _, ?_, h.hosts_fit,
    ?_, h.starts_lt⟩, rfl, List.suffix_rfl, ?_⟩
  · show p.items - p.mount + 1 = (p.consumed term span skipped).pending.length
    rw [hpending, List.length_cons, List.length_drop, hitems]
  · obtain ⟨room, hroom, hcontent, hd⟩ := h.fits
    refine ⟨room, ?_, fun hflat => ?_, hd⟩
    · show room ≤ p.shiftBase + 1
      omega
    · have hbefore := hcontent hflat
      show room + (if skipped then p.shiftTail + 1 else 0) ≤ p.shiftBase + 1
      split <;> omega
  · exact Nat.max_lt.mpr ⟨h.position_lt, hspan⟩
  · intro old hold hlen
    have hfloor := h.fits.floor_le
    have hbase : p.shiftBase = p.items - p.mount := rfl
    rw [hpending]
    exact (suffix_drop hold (by omega)).trans (List.suffix_cons _ _)

theorem Balanced.shifted (h : Balanced t p) (term : Term) {span : Span}
    (hspan : span.stop < UInt64.size) {target : StateId}
    (ht : target.toNat < p.tables.stateCount) {d : Descriptor}
    (hd : p.tables.descriptor target = .ok d) (start : Nat) :
    Balanced t
      ((p.consumed term span d.isSkipped).raised ⟨target, start, p.shiftBase, p.shiftTail⟩) := by
  obtain ⟨room, hroom, -, hdescends⟩ := h.fits
  refine (h.consumed term hspan d.isSkipped).balanced.raised ht
    ⟨p.shiftBase, Nat.le_succ _, fun hflat => ?_, Nat.le_refl _, hdescends.mono hroom⟩
  show p.shiftBase + (if d.isSkipped then p.shiftTail + 1 else 0) ≤ p.shiftBase + 1
  rw [hflat.skipless _ _ hd]
  exact Nat.le_succ _

/-- An action that consumes its token settles also what was mounted. -/
theorem Balanced.settles_of_consumes (h : Balanced t p) (hv : t.Valid) (hlay : t.Layered)
    (hf : p.finished = false) {term : Term} {a : Action} {r : Result} (ha : a.consumes = true)
    {span : Span} (hs : token.span? = some span) (happlies : Applies term token p a r) :
    Settles t p r.parse ∧ ∃ skipped, r.parse.log = (p.consumed term span skipped).log := by
  have hspan := (Token.stop?_eq_some_iff.mp (Token.span?_eq_some_iff.mp hs).2).2
  cases happlies with
  | unspanned _ hnone => rw [hs] at hnone; cases hnone
  | @shift _ d _ _ ht hd hs' lands =>
    obtain rfl : span = _ := Option.some.inj (hs.symm.trans hs')
    have hsettles := h.consumed term hspan d.isSkipped
    exact ⟨lands.settles hv hlay hsettles (h.shifted term hspan ht hd _) hf
      hsettles.balanced.position_lt, _, lands.log_eq⟩
  | skip hs' =>
    obtain rfl : span = _ := Option.some.inj (hs.symm.trans hs')
    exact ⟨h.consumed term hspan true, true, rfl⟩
  | push => cases ha
  | reduce => cases ha

/-! ## Reductions -/

/-- A reduction stands between the floor and the items, and on what is left of the frames. An empty
one that is not skipped content needs flat tables, where no frame stands on skipped items. -/
theorem Balanced.stands (h : Balanced t p) (hmount : p.mount = 0) {r : Reduction} {skipped : Bool}
    (hempty : skipped = false → r.depth = 0 → p.tables.Flat) {lowest : Frame} {stack : Stack}
    (hl : Stands p r skipped lowest stack) :
    lowest.base ≤ p.items ∧ Descends p.floor lowest.base stack.above := by
  have hbase : p.shiftBase = p.items := by rw [shiftBase, hmount, Nat.sub_zero]
  have htail : p.shiftTail = p.skippedTail := by rw [shiftTail, hmount, Nat.sub_zero]
  have hfloor := h.fits.floor_le
  obtain ⟨room, hroom, hcontent, hd⟩ := h.fits
  cases hl with
  | empty h0 _ =>
    cases skipped with
    | true => exact ⟨Nat.le_refl _, hd.mono (by rwa [hbase] at hroom)⟩
    | false =>
      have hfit := hcontent (hempty rfl h0)
      have hfront : (p.emptyFrame false).base = max (p.items - p.skippedTail) p.floor := rfl
      exact ⟨by omega, hd.mono (by omega)⟩
  | popped _ hf =>
    obtain ⟨hle, hrest⟩ := hd.drop hf
    exact ⟨by omega, hrest⟩

/-- What a reduction hoists and takes is all that lies above the frame that it stands on. -/
theorem hoisted_add_children (p : Parse) (r : Reduction) (skipped : Bool) (lowest : Frame) :
    (p.reduceEvent r skipped lowest).hoisted + (p.reduceEvent r skipped lowest).children =
      p.items - lowest.base := by
  show (if skipped then 0 else min p.skippedTail (p.items - lowest.base)) +
    (p.items - lowest.base - if skipped then 0 else min p.skippedTail (p.items - lowest.base)) = _
  split <;> omega

theorem room_reduced (hmount : p.mount = 0) (e : ReduceEvent) (lowest : Frame) :
    lowest.base ≤ (p.reduced e lowest).shiftBase ∧
      (e.skipped = false →
        lowest.base + (p.reduced e lowest).shiftTail ≤ (p.reduced e lowest).shiftBase) := by
  have hbase : (p.reduced e lowest).shiftBase = lowest.base + 1 + e.hoisted - p.mount := rfl
  have htail : (p.reduced e lowest).shiftTail =
      (if e.skipped then lowest.tail + 1 else e.hoisted) - p.mount := rfl
  refine ⟨by omega, fun hs => ?_⟩
  rw [htail, hs]
  show lowest.base + (e.hoisted - p.mount) ≤ _
  omega

/-- A reduction takes the items above the frame that it stands on, and its node comes there. -/
theorem Balanced.reduced (h : Balanced t p) (hmount : p.mount = 0) {r : Reduction} {skipped : Bool}
    (hempty : skipped = false → r.depth = 0 → p.tables.Flat)
    (hskip : p.tables.Flat → skipped = false) {lowest : Frame} {stack : Stack}
    (hl : Stands p r skipped lowest stack) :
    Settles t p ((p.withStack stack).reduced (p.reduceEvent r skipped lowest) lowest) := by
  obtain ⟨hle, hd⟩ := h.stands hmount hempty hl
  obtain ⟨hroom, hcontent⟩ := room_reduced (p := p.withStack stack) hmount
    (p.reduceEvent r skipped lowest) lowest
  have hfloor := hd.floor_le
  have hlength : p.items = p.builder.pending.length := h.items_eq
  have htaken := hoisted_add_children p r skipped lowest
  have hpending := TreeBuilder.pending_add_reduce p.builder (p.reduceEvent r skipped lowest)
  rw [htaken] at hpending
  refine ⟨⟨(h.sound.withStack (hl.state_lt h.sound.inTables)).of_levels_eq rfl rfl, h.shallow,
    h.running, ?_, ?_, ⟨lowest.base, hroom, fun hflat => hcontent (hskip hflat), hd⟩, h.hosts_fit,
    h.position_lt, h.starts_lt⟩, hmount, List.suffix_rfl, fun {old} hold hlen => ?_⟩
  · show lowest.base + 1 + (p.reduceEvent r skipped lowest).hoisted =
      (p.builder.add (.reduce (p.reduceEvent r skipped lowest))).pending.length
    rw [hpending, List.length_append, List.length_cons, List.length_take, List.length_drop]
    omega
  · show p.mount ≤ _
    rw [hmount]
    exact Nat.zero_le _
  · show old <:+ (p.builder.add (.reduce (p.reduceEvent r skipped lowest))).pending
    rw [hpending]
    -- what is below the floor is below the frame that the reduction stands on
    have hkept : old <:+ p.builder.pending.drop (p.items - lowest.base) := by
      have hold : old <:+ p.builder.pending := hold
      exact suffix_drop hold (by omega)
    exact (hkept.trans (List.suffix_cons _ _)).trans (List.suffix_append _ _)

theorem Balanced.popped (h : Balanced t p) {r : Reduction} {skipped : Bool} {lowest : Frame}
    {stack : Stack} (hl : Stands p r skipped lowest stack) : Balanced t (p.withStack stack) := by
  refine ⟨h.sound.withStack (hl.state_lt h.sound.inTables), h.shallow, h.running, h.items_eq,
    h.mount_le, ?_, h.hosts_fit, h.position_lt, h.starts_lt⟩
  cases hl with
  | empty => exact h.fits
  | popped _ hf =>
    obtain ⟨room, hroom, hcontent, hd⟩ := h.fits
    obtain ⟨hle, hrest⟩ := hd.drop hf
    exact ⟨room, hroom, hcontent, hrest.mono hle⟩

theorem Reduces.settles {r : Reduction} {skipped : Bool} {result : Result}
    (hr : Reduces token r skipped p result) (h : Balanced t p) (hv : t.Valid) (hlay : t.Layered)
    (hmount : p.mount = 0) (hf : p.finished = false) (hstart : token.start < UInt64.size)
    (hempty : skipped = false → r.depth = 0 → p.tables.Flat)
    (hskip : p.tables.Flat → skipped = false) : Settles t p result.parse := by
  cases hr with
  | underflow => exact h.settles hmount
  | uncounted => exact h.settles hmount
  | missing hl => exact ⟨h.popped hl, hmount, List.suffix_rfl, fun hold _ => hold⟩
  | stays hl => exact h.reduced hmount hempty hskip hl
  | @goes lowest stack _ _ hl _ _ ht lands =>
    have hsettles := h.reduced hmount hempty hskip hl
    obtain ⟨-, hd⟩ := h.stands hmount hempty hl
    obtain ⟨hroom, hcontent⟩ := room_reduced (p := p.withStack stack) hmount
      (p.reduceEvent r skipped lowest) lowest
    refine lands.settles hv hlay hsettles (hsettles.balanced.raised ht ?_) hf hstart
    exact ⟨lowest.base, hroom, fun hflat => hcontent (hskip hflat), Nat.le_refl _, hd⟩

/-! ## Steps -/

theorem Applies.settles {term : Term} {a : Action} {r : Result}
    (happlies : Applies term token p a r) (h : Balanced t p) (hv : t.Valid) (hlay : t.Layered)
    (hmount : p.mount = 0) (hf : p.finished = false) (hstart : token.start < UInt64.size)
    (ha : p.tables.action p.state term = .ok (some a)) : Settles t p r.parse := by
  by_cases hc : a.consumes = true
  · -- a token that ends beyond 64 bits stops the step before anything changes
    cases hs : token.span? with
    | none =>
      cases happlies with
      | unspanned => exact h.settles hmount
      | shift _ _ hsome => rw [hs] at hsome; cases hsome
      | skip hsome => rw [hs] at hsome; cases hsome
      | push => cases hc
      | reduce => cases hc
    | some span => exact (h.settles_of_consumes hv hlay hf hc hs happlies).1
  · cases happlies with
    | unspanned hc' => exact absurd hc' hc
    | shift => exact absurd rfl hc
    | skip => exact absurd rfl hc
    | @push target _ ht lands =>
      obtain ⟨room, hroom, -, hd⟩ := h.fits
      refine lands.settles hv hlay (h.settles hmount) (h.raised ht ?_) hf hstart
      refine ⟨p.shiftBase, Nat.le_refl _, fun hflat => absurd ha (hflat.pushless _ _ _), ?_,
        hd.mono ?_⟩
      · show p.items ≤ p.items - p.mount
        omega
      · show room ≤ p.items
        exact Nat.le_trans hroom (Nat.sub_le _ _)
    | reduce hd reduces =>
      refine reduces.settles h hv hlay hmount hf hstart (fun hs h0 => ?_)
        (fun hflat => hflat.skipless _ _ hd)
      exact (h.orderly hlay).resolve_left fun hfree => hfree _ _ _ _ hd hs ha h0

/-- Whatever a step comes to, it settles. -/
theorem Outcome.settles {r : Result} (hout : Outcome token p r) (h : Balanced t p) (hv : t.Valid)
    (hlay : t.Layered) (hmount : p.mount = 0) (hstart : token.start < UInt64.size) :
    Settles t p r.parse := by
  cases hout with
  | finished => exact h.settles hmount
  | accepted =>
    show Settles t p (if p.suspended.isEmpty then p.closed else p)
    split
    · rename_i hempty
      have hnil : p.suspended = [] := List.isEmpty_iff.mp hempty
      exact ⟨⟨h.sound.of_levels_eq rfl rfl, h.shallow, fun hne => absurd hnil hne, h.items_eq,
        h.mount_le, h.fits, h.hosts_fit, h.position_lt, h.starts_lt⟩, hmount, List.suffix_rfl,
        fun hold _ => hold⟩
    · exact h.settles hmount
  | resolved hf _ ha applies => exact applies.settles h hv hlay hmount hf hstart ha
  | mismatched => exact h.settles hmount
  | @recovered m a _ hf _ _ _ ha applies =>
    have hsettles := applies.settles (p := p.recovered ⟨m, a.consumes⟩) (h.recovered _) hv hlay
      hmount hf hstart ha
    exact ⟨hsettles.balanced, hsettles.mount_eq, hsettles.suspended_suffix, hsettles.keeps⟩

end Parse

end LRMachine
