import LRMachine.Proofs.Correspondence
import LRMachine.Proofs.Lockstep

/-!
# The bases of the frames

Each frame holds the number of items below its content, its base. A reduction takes the items above
the base of the lowest frame that it pops, so the bases should not fall from the bottom to the top
(`Parse.BasesOrdered`). An empty node that is not skipped content comes in front of the skipped
items at the end, and where the top frame stands on such items, the node's frame gets a base below
that of the top frame (`Parse.Undercuts`). Nothing else breaks the order
(`basesOrdered_iff_not_undercuts`). In the tables `undercut` this happens, and a later reduction
there takes nothing although the frames that it pops have a node.
-/

namespace LRMachine

/-! ## Places that descend -/

theorem descends_zero_iff {frames : List Frame} : ∀ {room : Nat}, Descends 0 room frames ↔
    frames.Pairwise (fun newer older => older.base ≤ newer.base) ∧ ∀ f ∈ frames, f.base ≤ room := by
  induction frames with
  | nil => simp [Descends]
  | cons f older ih =>
    intro room
    rw [Descends, ih, List.pairwise_cons, List.forall_mem_cons]
    constructor
    · rintro ⟨hle, hpairs, hall⟩
      exact ⟨⟨hall, hpairs⟩, hle, fun g hg => Nat.le_trans (hall g hg) hle⟩
    · rintro ⟨⟨hall, hpairs⟩, hle, -⟩
      exact ⟨hle, hpairs, hall⟩

theorem Descends.concat {f : Frame} (hf : f.base = 0) : ∀ {frames : List Frame} {room : Nat},
    Descends 0 room frames → Descends 0 room (frames ++ [f]) := by
  intro frames
  induction frames with
  | nil => exact fun _ => ⟨by omega, Nat.zero_le _⟩
  | cons first older ih => exact fun h => ⟨h.1, ih h.2⟩

theorem Stack.frames_eq_cons (s : Stack) : ∃ older, s.frames = s.top :: older := by
  unfold frames top
  cases s.above with
  | nil => exact ⟨[], rfl⟩
  | cons f older => exact ⟨older ++ [s.bottom], rfl⟩

/-- The frames of a stack that descend from some place descend from every place that is not below
the top frame. -/
theorem Descends.iff_top_le {s : Stack} {room base : Nat} (h : Descends 0 room s.frames) :
    Descends 0 base s.frames ↔ s.top.base ≤ base := by
  obtain ⟨older, hframes⟩ := s.frames_eq_cons
  rw [hframes] at h ⊢
  exact ⟨And.left, fun hle => ⟨hle, h.2⟩⟩

namespace Parse

variable {t : Tables} {o : Options} {u : User} {token : Token} {p q : Parse}

/-- The bases of the frames do not fall from the bottom to the top, and none is above the items. -/
structure BasesOrdered (p : Parse) : Prop where
  ascending : p.active.stack.frames.Pairwise fun newer older => older.base ≤ newer.base
  within : ∀ f ∈ p.active.stack.frames, f.base ≤ p.items

instance (p : Parse) : Decidable p.BasesOrdered :=
  decidable_of_iff (_ ∧ _) ⟨fun h => BasesOrdered.mk h.1 h.2, fun h => ⟨h.ascending, h.within⟩⟩

theorem BasesOrdered.iff_descends : p.BasesOrdered ↔ Descends 0 p.items p.active.stack.frames := by
  rw [descends_zero_iff]
  exact ⟨fun h => ⟨h.ascending, h.within⟩, fun h => ⟨h.1, h.2⟩⟩

theorem basesOrdered_new (t : Tables) (o : Options) : (new t o).BasesOrdered :=
  BasesOrdered.iff_descends.mpr ⟨Nat.le_refl _, Nat.le_refl _⟩

/-- Among the events an empty node is built that is not skipped content. -/
def BuildsEmpty (events : List Event) : Prop :=
  ∃ e, .reduce e ∈ events ∧ e.depth = 0 ∧ e.skipped = false

/-- Behind `p` an empty node was built in front of skipped items that the top frame of `p` stands
on, and in `q` its frame is on top. -/
structure Undercuts (p q : Parse) : Prop where
  empty : ∃ news, q.log = news ++ p.log ∧ BuildsEmpty news
  below : p.items - p.skippedTail < p.active.stack.top.base
  raised : p.active.stack.length < q.active.stack.length

theorem undercuts_iff {news : List Event} (h : q.log = news ++ p.log) :
    Undercuts p q ↔ BuildsEmpty news ∧ p.items - p.skippedTail < p.active.stack.top.base ∧
      p.active.stack.length < q.active.stack.length := by
  constructor
  · rintro ⟨⟨news', hlog, hempty⟩, hbelow, hraised⟩
    obtain rfl : news' = news := List.append_cancel_right (hlog.symm.trans h)
    exact ⟨hempty, hbelow, hraised⟩
  · rintro ⟨hempty, hbelow, hraised⟩
    exact ⟨⟨news, h, hempty⟩, hbelow, hraised⟩

theorem not_undercuts_of_silent (h : q.log = p.log) : ¬ Undercuts p q := by
  have hlog : q.log = [] ++ p.log := h
  rw [undercuts_iff hlog]
  rintro ⟨⟨e, he, -⟩, -⟩
  cases he

theorem not_undercuts_of_shift {e : ShiftEvent} (h : q.log = .shift e :: p.log) :
    ¬ Undercuts p q := by
  have hlog : q.log = [.shift e] ++ p.log := h
  rw [undercuts_iff hlog]
  rintro ⟨⟨e', he, -⟩, -⟩
  cases List.mem_singleton.mp he

theorem undercuts_iff_of_reduce {e : ReduceEvent} (h : q.log = .reduce e :: p.log) :
    Undercuts p q ↔ (e.depth = 0 ∧ e.skipped = false) ∧
      p.items - p.skippedTail < p.active.stack.top.base ∧
      p.active.stack.length < q.active.stack.length := by
  have hlog : q.log = [.reduce e] ++ p.log := h
  rw [undercuts_iff hlog]
  simp [BuildsEmpty]

theorem undercuts_recovered_iff {d : Diagnostic} {news : List Event}
    (h : q.log = news ++ (p.recovered d).log) : Undercuts (p.recovered d) q ↔ Undercuts p q := by
  have hlog : q.log = (news ++ [.diagnostic d]) ++ p.log := by
    rw [h, List.append_assoc]
    rfl
  have hsame : BuildsEmpty (news ++ [.diagnostic d]) ↔ BuildsEmpty news := by simp [BuildsEmpty]
  rw [undercuts_iff h, undercuts_iff hlog, hsame]
  rfl

/-! ## Frames under a reduction -/

section Stands

variable {r : Reduction} {skipped : Bool} {lowest : Frame} {stack : Stack}

theorem BasesOrdered.base_le (h : p.BasesOrdered) (hs : p.suspended = [])
    (hl : Stands p r skipped lowest stack) : lowest.base ≤ p.items := by
  cases hl with
  | empty =>
    unfold emptyFrame
    split
    · exact Nat.le_refl _
    · rw [floor, hs]
      show max (p.items - p.skippedTail) 0 ≤ p.items
      omega
  | popped _ hf => exact h.within lowest (List.mem_append_left _ (List.mem_of_getElem? hf))

/-- The frames under a reduction descend from the one that it stands on, unless that one is the
frame of an empty node below the top frame. -/
theorem BasesOrdered.descends_iff (h : p.BasesOrdered) (hs : p.suspended = [])
    (hl : Stands p r skipped lowest stack) : Descends 0 lowest.base stack.frames ↔
      ¬ (r.depth.toNat = 0 ∧ skipped = false ∧
        p.items - p.skippedTail < p.active.stack.top.base) := by
  have hd := BasesOrdered.iff_descends.mp h
  cases hl with
  | empty h0 =>
    rw [hd.iff_top_le, ← Nat.not_lt]
    have hdepth : r.depth.toNat = 0 := congrArg UInt16.toNat h0
    -- skipped content comes at the very end, other content in front of the skipped items there
    cases skipped with
    | true =>
      have htop : p.active.stack.top.base ≤ p.items := hd.iff_top_le.mp hd
      have hbase : (p.emptyFrame true).base = p.items := rfl
      simp only [hbase, Bool.true_eq_false, false_and, and_false, not_false_eq_true, iff_true]
      omega
    | false =>
      have hfloor : p.floor = 0 := by rw [floor, hs]
      have hbase : (p.emptyFrame false).base = max (p.items - p.skippedTail) p.floor := rfl
      rw [hbase, hfloor, Nat.max_zero, hdepth]
      simp
  | @popped n f hdepth hf =>
    have hn : n < p.active.stack.above.length := (List.getElem?_eq_some_iff.mp hf).1
    have hheight := p.active.stack.height_eq
    have hf : p.active.stack.frames[n]? = some lowest := by
      rw [Stack.frames, List.getElem?_append_left hn, hf]
    rw [Stack.frames_lower _ (by omega)]
    exact iff_of_true (hd.drop hf).2 fun hempty => by omega

theorem BasesOrdered.popped (h : p.BasesOrdered) (hl : Stands p r skipped lowest stack) :
    (p.withStack stack).BasesOrdered := by
  cases hl with
  | empty => exact ⟨h.ascending, h.within⟩
  | @popped n _ _ hf =>
    have hn : n < p.active.stack.above.length := (List.getElem?_eq_some_iff.mp hf).1
    have hframes : (p.active.stack.lower (n + 1)).frames = p.active.stack.frames.drop (n + 1) :=
      Stack.frames_lower _ (by rw [p.active.stack.height_eq]; omega)
    refine ⟨?_, fun f hmem => h.within f (List.mem_of_mem_drop (hframes ▸ hmem))⟩
    show List.Pairwise _ (p.active.stack.lower (n + 1)).frames
    rw [hframes]
    exact h.ascending.drop

/-- Behind the event of a reduction the bases are ordered as long as no frame is put on top. -/
theorem BasesOrdered.reduced (h : p.BasesOrdered) (hs : p.suspended = [])
    (hl : Stands p r skipped lowest stack) :
    ((p.withStack stack).reduced (p.reduceEvent r skipped lowest) lowest).BasesOrdered := by
  have hbase := h.base_le hs hl
  have hall := h.descends_iff hs hl
  rw [BasesOrdered.iff_descends] at h ⊢
  show Descends 0 (lowest.base + 1 + (p.reduceEvent r skipped lowest).hoisted) stack.frames
  cases hl with
  | popped hdepth =>
    exact (hall.mpr fun hempty => by omega).mono (by omega)
  | empty =>
    have hhoisted : (p.reduceEvent r skipped (p.emptyFrame skipped)).hoisted =
      if skipped then 0 else min p.skippedTail (p.items - (p.emptyFrame skipped).base) := rfl
    refine h.mono ?_
    cases skipped with
    | true =>
      have hfront : (p.emptyFrame true).base = p.items := rfl
      omega
    | false =>
      have hfront : (p.emptyFrame false).base = max (p.items - p.skippedTail) p.floor := rfl
      simp only [Bool.false_eq_true, if_false] at hhoisted
      omega

end Stands

/-! ## Steps -/

theorem raised_basesOrdered_iff {f : Frame} (hf : f.base ≤ p.items) :
    (p.raised f).BasesOrdered ↔ Descends 0 f.base p.active.stack.frames := by
  rw [BasesOrdered.iff_descends]
  exact ⟨And.right, fun h => ⟨hf, h⟩⟩

theorem Lands.basesOrdered {f : Frame} {start : Nat} {made : Step} {r : Result}
    (l : Lands p f start made r) (hn : p.tables.Nestless) (h : p.BasesOrdered)
    (hf : f.base ≤ p.items) (htop : p.active.stack.top.base ≤ f.base) : r.parse.BasesOrdered := by
  rcases l.of_nestless hn with ⟨-, rfl⟩ | ⟨-, rfl⟩
  · exact h
  · exact (raised_basesOrdered_iff hf).mpr ((BasesOrdered.iff_descends.mp h).iff_top_le.mpr htop)

theorem BasesOrdered.top_le (h : p.BasesOrdered) : p.active.stack.top.base ≤ p.items :=
  have hd := BasesOrdered.iff_descends.mp h
  hd.iff_top_le.mp hd

theorem Stands.length_le {r : Reduction} {skipped : Bool} {lowest : Frame} {stack : Stack}
    (hl : Stands p r skipped lowest stack) : stack.length ≤ p.active.stack.length := by
  cases hl with
  | empty => exact Nat.le_refl _
  | popped =>
    show p.active.stack.height - _ + 1 ≤ p.active.stack.height + 1
    omega

/-- The bases stay ordered behind a reduction exactly if it does not undercut. -/
theorem Reduces.basesOrdered_iff {r : Reduction} {skipped : Bool} {result : Result}
    (hreduces : Reduces token r skipped p result) (h : p.BasesOrdered) (hs : p.suspended = [])
    (hn : p.tables.Nestless) : result.parse.BasesOrdered ↔ ¬ Undercuts p result.parse := by
  -- without a frame on top nothing is undercut
  have hlow : ∀ {lowest : Frame} {stack : Stack} {e : ReduceEvent},
      Stands p r skipped lowest stack → ¬ Undercuts p ((p.withStack stack).reduced e lowest) :=
    fun hl hunder => Nat.not_lt.mpr hl.length_le hunder.raised
  cases hreduces with
  | underflow => exact iff_of_true h (not_undercuts_of_silent rfl)
  | uncounted => exact iff_of_true h (not_undercuts_of_silent rfl)
  | missing hl => exact iff_of_true (h.popped hl) (not_undercuts_of_silent rfl)
  | stays hl => exact iff_of_true (h.reduced hs hl) (hlow hl)
  | @goes lowest stack target _ hl _ _ _ lands =>
    rcases lands.of_nestless hn with ⟨-, rfl⟩ | ⟨-, rfl⟩
    · exact iff_of_true (h.reduced hs hl) (hlow hl)
    · have hplace : (raised ((p.withStack stack).reduced (p.reduceEvent r skipped lowest) lowest)
          ⟨target, lowest.start, lowest.base, lowest.tail⟩).BasesOrdered ↔
          Descends 0 lowest.base stack.frames :=
        raised_basesOrdered_iff (f := ⟨target, lowest.start, lowest.base, lowest.tail⟩)
          (by show lowest.base ≤ lowest.base + 1 + _; omega)
      refine hplace.trans ?_
      refine (h.descends_iff hs hl).trans (not_congr ?_)
      refine Iff.trans ?_ (undercuts_iff_of_reduce rfl).symm
      rw [and_assoc]
      refine and_congr_right fun hdepth => and_congr_right fun _ => (and_iff_left ?_).symm
      -- an empty reduction leaves all frames under the new one
      cases hl with
      | empty => exact Nat.lt_succ_self _
      | popped hd => omega

theorem Applies.basesOrdered_iff {term : Term} {a : Action} {r : Result}
    (happlies : Applies term token p a r) (h : p.BasesOrdered) (hs : p.suspended = [])
    (hm : p.mount = 0) (hn : p.tables.Nestless) :
    r.parse.BasesOrdered ↔ ¬ Undercuts p r.parse := by
  have hbase : p.shiftBase = p.items := by rw [shiftBase, hm, Nat.sub_zero]
  have hconsumed : ∀ span skipped, (p.consumed term span skipped).BasesOrdered := by
    intro span skipped
    rw [BasesOrdered.iff_descends] at h ⊢
    exact h.mono (by show p.items ≤ p.shiftBase + 1; omega)
  cases happlies with
  | unspanned => exact iff_of_true h (not_undercuts_of_silent rfl)
  | shift _ _ _ lands =>
    refine iff_of_true (lands.basesOrdered hn (hconsumed _ _) ?_ ?_)
      (not_undercuts_of_shift lands.log_eq)
    · exact Nat.le_succ _
    · exact Nat.le_trans h.top_le (Nat.le_of_eq hbase.symm)
  | push _ lands =>
    exact iff_of_true (lands.basesOrdered hn h (Nat.le_refl _) h.top_le)
      (not_undercuts_of_silent lands.log_eq)
  | skip => exact iff_of_true (hconsumed _ _) (not_undercuts_of_shift rfl)
  | reduce _ reduces => exact reduces.basesOrdered_iff h hs hn

theorem Outcome.basesOrdered_iff {r : Result} (hout : Outcome token p r) (h : p.BasesOrdered)
    (hs : p.suspended = []) (hm : p.mount = 0) (hn : p.tables.Nestless) :
    r.parse.BasesOrdered ↔ ¬ Undercuts p r.parse := by
  cases hout with
  | finished => exact iff_of_true h (not_undercuts_of_silent rfl)
  | mismatched => exact iff_of_true h (not_undercuts_of_silent rfl)
  | accepted =>
    show (if p.suspended.isEmpty then p.closed else p).BasesOrdered ↔
      ¬ Undercuts p (if p.suspended.isEmpty then p.closed else p)
    split
    · exact iff_of_true ⟨h.ascending, h.within⟩ (not_undercuts_of_silent rfl)
    · exact iff_of_true h (not_undercuts_of_silent rfl)
  | resolved _ _ _ applies => exact applies.basesOrdered_iff h hs hm hn
  | @recovered m a _ _ _ _ _ _ applies =>
    obtain ⟨news, hlog, -⟩ := applies.exists_reported
    rw [← undercuts_recovered_iff hlog]
    exact applies.basesOrdered_iff (p := p.recovered _) ⟨h.ascending, h.within⟩ hs hm hn

/-! ## Reported reductions -/

/-- The reduction takes exactly the items above the frame that it stands on. -/
def TakesAbove (p : Parse) (e : ReduceEvent) : Prop :=
  ∃ lowest, (if e.depth = 0 then some (p.emptyFrame e.skipped)
      else p.active.stack.frames[e.depth - 1]?) = some lowest ∧
    lowest.base ≤ p.items ∧ e.children + e.hoisted = p.items - lowest.base

theorem BasesOrdered.takesAbove (h : p.BasesOrdered) (hs : p.suspended = []) {r : Reduction}
    {skipped : Bool} {lowest : Frame} {stack : Stack} (hl : Stands p r skipped lowest stack) :
    p.TakesAbove (p.reduceEvent r skipped lowest) := by
  refine ⟨lowest, ?_, h.base_le hs hl, ?_⟩
  · show (if r.depth.toNat = 0 then some (p.emptyFrame skipped)
      else p.active.stack.frames[r.depth.toNat - 1]?) = some lowest
    cases hl with
    | empty h0 =>
      rw [h0]
      rfl
    | popped hd hf =>
      rw [if_neg (by omega), hd, Nat.add_sub_cancel, Stack.frames,
        List.getElem?_append_left (List.getElem?_eq_some_iff.mp hf).1]
      exact hf
  · rw [Nat.add_comm]
    exact hoisted_add_children p r skipped lowest

theorem Outcome.exists_stands {r : Result} (hout : Outcome token p r) {earlier : List Event}
    {e : ReduceEvent} (he : Reports p r earlier e) :
    ∃ red skipped lowest stack, Stands p red skipped lowest stack ∧
      e = p.reduceEvent red skipped lowest := by
  obtain ⟨x, hx, -, d, red, lowest, stack, -, hl, rfl⟩ := hout.exists_reported he
  rcases hx with rfl | ⟨diagnostic, rfl⟩
  · exact ⟨red, d.isSkipped, lowest, stack, hl, rfl⟩
  · -- a diagnostic leaves the frames and the counters alone
    refine ⟨red, d.isSkipped, lowest, stack, ?_, rfl⟩
    cases hl with
    | empty h0 hc => exact .empty h0 hc
    | popped hd hf => exact .popped hd hf

/-! ## Runs -/

/-- The points that the user's runs come to before anything is undercut. -/
def Upright (t : Tables) (o : Options) (u : User) (x : Point) : Prop :=
  Relation.ReflTransGen (fun y z => Move u y z ∧ ¬ Undercuts y.parse z.parse) ⟨.idle, new t o⟩ x

theorem Upright.visited {x : Point} (h : Upright t o u x) : Visited t o u x :=
  Relation.ReflTransGen.mono (fun _ _ hmove => hmove.1) _ _ h

/-- At a point with ordered bases a move keeps the order exactly if it does not undercut. -/
theorem Visited.basesOrdered_iff (hv : t.Valid) (hn : t.Nestless) {x y : Point}
    (hx : Visited t o u x) (h : x.parse.BasesOrdered) (hmove : Move u x y) :
    y.parse.BasesOrdered ↔ ¬ Undercuts x.parse y.parse := by
  have halone := hx.alone hv hn
  have hsound := halone.sound
  have hs := hsound.suspended_eq hn
  have hsame : y.parse = x.parse → (y.parse.BasesOrdered ↔ ¬ Undercuts x.parse y.parse) := by
    intro heq
    rw [heq]
    exact iff_of_true h (not_undercuts_of_silent rfl)
  have hstep : ∀ {token} {r : Result}, step token x.parse = r →
      (r.parse.BasesOrdered ↔ ¬ Undercuts x.parse r.parse) := fun hr =>
    (hsound.step hv hr).1.basesOrdered_iff h hs halone.mount_eq (hsound.tables_eq hn ▸ hn)
  cases hmove with
  | made _ _ hr => exact hstep hr
  | failed _ _ _ hr => exact hstep hr
  | left hleave =>
    rcases leave_eq_ok hleave with ⟨-, rfl⟩ | ⟨innermost, outer, hsome, -, -⟩
    · exact hsame rfl
    · rw [hs] at hsome
      cases hsome
  | _ => exact hsame rfl

theorem Upright.ordered (hv : t.Valid) (hn : t.Nestless) {x : Point} (h : Upright t o u x) :
    x.parse.BasesOrdered := by
  induction h with
  | refl => exact basesOrdered_new t o
  | tail hpath hmove ih =>
    exact ((Upright.visited hpath).basesOrdered_iff hv hn ih hmove.1).mpr hmove.2

/-- A run that is past a point where something is undercut has a first such point. -/
theorem Visited.upright_or {x : Point} (h : Visited t o u x) :
    Upright t o u x ∨ ∃ y z, Upright t o u y ∧ Move u y z ∧ Undercuts y.parse z.parse := by
  induction h with
  | refl => exact .inl .refl
  | @tail y z _ hmove ih =>
    rcases ih with hup | hfirst
    · by_cases hunder : Undercuts y.parse z.parse
      · exact .inr ⟨y, z, hup, hmove, hunder⟩
      · exact .inl (Relation.ReflTransGen.tail hup ⟨hmove, hunder⟩)
    · exact .inr hfirst

/-- Over valid tables without nested grammars, and until something is undercut, the bases are
ordered and a reduction takes exactly the items above the frame that it stands on; and the bases
cease to be ordered exactly with the first move that undercuts. So they are ordered in all states if
and only if no move ever undercuts. -/
theorem basesOrdered_iff_not_undercuts (hv : t.Valid) (hn : t.Nestless) (o : Options) (u : User) :
    (∀ {x}, Upright t o u x → x.parse.BasesOrdered ∧
      (∀ token earlier e, Reports x.parse (step token x.parse) earlier e → x.parse.TakesAbove e) ∧
      ∀ y, Move u x y → (y.parse.BasesOrdered ↔ ¬ Undercuts x.parse y.parse)) ∧
    ((∀ x, Visited t o u x → x.parse.BasesOrdered) ↔
      ∀ x y, Visited t o u x → Move u x y → ¬ Undercuts x.parse y.parse) := by
  refine ⟨fun {x} hx => ?_, fun hall x y hx hmove => ?_, fun hnever x hx => ?_⟩
  · have hordered := hx.ordered hv hn
    refine ⟨hordered, fun token earlier e he => ?_, fun y =>
      hx.visited.basesOrdered_iff hv hn hordered⟩
    have hsound := hx.visited.sound hv
    obtain ⟨red, skipped, lowest, stack, hl, rfl⟩ :=
      (hsound.outcome hv token).exists_stands he
    exact hordered.takesAbove (hsound.suspended_eq hn) hl
  · exact (hx.basesOrdered_iff hv hn (hall x hx) hmove).mp
      (hall y (Relation.ReflTransGen.tail hx hmove))
  · rcases hx.upright_or with hup | ⟨y, z, hy, hmove, hunder⟩
    · exact hup.ordered hv hn
    · exact absurd hunder (hnever y z hy.visited hmove)

/-! ## Orderly tables -/

theorem Visited.base_bottom (hv : t.Valid) (hn : t.Nestless) {x : Point} (hx : Visited t o u x) :
    x.parse.active.stack.bottom.base = 0 := by
  refine hx.kept (I := fun p => p.active.stack.bottom.base = 0) hv hn rfl ?_
  intro p token r halone hbase _ hout
  rw [(hout.sameLevel (halone.sound.tables_eq hn ▸ hn)).bottom_eq]
  exact hbase

/-- Where no empty node can get below a frame, nothing is ever undercut: the bases are ordered in
all states. -/
theorem Visited.basesOrdered_of_orderly (hv : t.Valid) (hn : t.Nestless) (ho : t.Orderly)
    {x : Point} (hx : Visited t o .inRange x) : x.parse.BasesOrdered := by
  obtain ⟨room, hroom, -, hd⟩ := (hx.recalls hv hn ho).1.fits
  have hfloor : x.parse.floor = 0 := by rw [floor, (hx.sound hv).suspended_eq hn]
  rw [hfloor] at hd
  refine BasesOrdered.iff_descends.mpr (.concat (hx.base_bottom hv hn) ?_)
  exact hd.mono (Nat.le_trans hroom (Nat.sub_le _ _))

/-! ## A node that is taken by the wrong reduction -/

/-- Two skipped 9, and a state that is pushed behind them. The empty 5 comes in front of the 9,
below the frame of that state. The 7 takes the 5 and the frame of the 3, and with them both 9; the
11 takes the frames of the 7 and of the pushed state. -/
def undercut : Tables where
  start := 0
  states := #[0, 0, 0, 0, 7, 3, 0, 11, 7, 0, 15, 7, 0, 19, 7, 2, 22, 7]
  actions := #[9, 0, 4, 3, 1, 2, 0xffff, 3, 5, 1, 0xffff, 3, 3, 0, 0xffff, 0, 7, 17, 0xffff,
    0, 11, 17, 0xffff]
  gotos := #[11, 5, 0xffff, 5, 2, 7, 4, 0xffff]
  specializations := #[]
  nested := []
  names := []

theorem undercut_valid : undercut.Valid := .intro rfl (by simp [undercut])

theorem undercut_nestless : undercut.Nestless := Tables.nestless_of_isNestless (by decide)

/-- Two 9 and a 3, up to the point where the 11 is reduced. -/
def undercutCalls : List Call :=
  [.advance ⟨9, 0, 1⟩, .advance ⟨9, 1, 1⟩, .advance ⟨3, 2, 1⟩, .step (Token.eof 3)]

def undercutParse : Parse := runCalls 5 undercutCalls (new undercut {})

theorem reachable_undercutParse : Reachable undercut {} .inRange undercutParse := by
  have hmakes : ∀ c ∈ undercutCalls, c.token.stop?.isSome = true := by decide
  exact Reachable.new.runCalls trivial hmakes (by decide +kernel)

theorem not_ordered_undercutParse : ¬ undercutParse.BasesOrdered := by decide +kernel

/-- A run comes to the point where the 5 undercuts, and there the bases cease to be ordered. -/
theorem basesOrdered_iff_not_undercuts_once :
    undercut.Valid ∧ undercut.Nestless ∧ ∃ x y, Upright undercut {} .inRange x ∧
      x.parse.BasesOrdered ∧ Move .inRange x y ∧ Undercuts x.parse y.parse ∧
      ¬ y.parse.BasesOrdered := by
  obtain ⟨huntil, -⟩ :=
    basesOrdered_iff_not_undercuts undercut_valid undercut_nestless {} .inRange
  rcases reachable_undercutParse.visited.upright_or with hup | ⟨x, y, hx, hmove, hunder⟩
  · exact absurd (huntil hup).1 not_ordered_undercutParse
  · obtain ⟨hordered, -, hiff⟩ := huntil hx
    exact ⟨undercut_valid, undercut_nestless, x, y, hx, hordered, hmove, hunder,
      fun hy => (hiff y hmove).mp hy hunder⟩

/-- In a state that calls of `advance` and `step` come to, the bases are not ordered, and the 11
that is reduced next takes nothing: the subtraction saturates. -/
theorem not_basesOrdered_undercut :
    undercut.Valid ∧ undercut.Nestless ∧ ∃ p e lowest, Reachable undercut {} .inRange p ∧
      ¬ p.BasesOrdered ∧ Reports p (step (Token.eof 3) p) [] e ∧ e.depth = 2 ∧
      p.active.stack.frames[1]? = some lowest ∧ p.items < lowest.base ∧
      e.children + e.hoisted = 0 := by
  refine ⟨undercut_valid, undercut_nestless, undercutParse, ⟨11, ⟨2, 3⟩, 2, 0, 0, false, false⟩,
    ⟨1, 2, 2, 2⟩, reachable_undercutParse, not_ordered_undercutParse, ⟨[], ?_⟩, rfl, ?_, ?_, rfl⟩
  · decide +kernel
  · decide +kernel
  · decide +kernel

end Parse

end LRMachine
