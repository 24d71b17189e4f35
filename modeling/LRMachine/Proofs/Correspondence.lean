import LRMachine.Proofs.Evaluation
import LRMachine.Proofs.Pending
import LRMachine.Proofs.Runs

/-!
# The stack mirrors the tree

The automaton does not hold the tree; it counts pending items and remembers a place in every frame.
On plain tables, which skip only by staying in a state, the counts are right until the first error:
the frames above the base frame are the pending nodes that are not skipped, one for one and in
order, and the `base` of a frame is the place of its node (`Parse.Mirrors`). Hence a reduction takes
exactly the nodes of the frames that it pops, with the skipped nodes between them, and makes them
the children of its node (`TakesPopped`).
-/

namespace LRMachine

/-- A reduction event, received by the builder `b` while the stack has the frames `above` its base
frame: the pending nodes are, newest first, skipped nodes that trail, the nodes that are taken, and
those below. The nodes that are taken and not skipped are those of the popped frames; one of them is
the newest and one the oldest that is taken. -/
structure TakesPopped (above : List Frame) (b : TreeBuilder) (e : ReduceEvent)
    (trailing taken below : List Node) : Prop where
  depth_le : e.depth ≤ above.length
  pending_eq : b.pending = trailing ++ (taken ++ below)
  trailing_skipped : ∀ n ∈ trailing, n.skipped = true
  places : contentPlaces (taken ++ below) = above.map Frame.base
  places_below : contentPlaces below = (above.drop e.depth).map Frame.base
  newest_content : ∀ n ∈ taken.head?, n.skipped = false
  oldest_content : ∀ n ∈ taken.getLast?, n.skipped = false
  taken_of_empty : e.depth = 0 → taken = []
  /-- The children, oldest first and before repetitions dissolve. -/
  children_eq : b.taken e.children e.hoisted = taken.reverse
  /-- The node has them for children, and of a repetition of its term the children. -/
  node_children : (b.reduceNode e).children = taken.reverse.flatMap fun n =>
    if n.repeats = true ∧ n.term = e.term then n.children else [n]
  /-- The node comes in the place of its children, and what trailed them trails it. -/
  pending_after : (b.add (.reduce e)).pending = trailing ++ b.reduceNode e :: below

namespace Parse

variable {t : Tables} {o : Options} {token : Token} {p q : Parse}

/-- The frames above the base frame are the pending nodes that are not skipped, in order, each with
the place of its node as `base`. -/
def Mirrors (p : Parse) : Prop :=
  contentPlaces p.pending = p.active.stack.above.map Frame.base

/-- What a plain parse without an error keeps. -/
structure Counted (p : Parse) : Prop where
  outermost : p.suspended = []
  unmounted : p.mount = 0
  mirrors : p.Mirrors
  items_eq : p.items = p.pending.length
  tail_eq : p.skippedTail = (trailingSkipped p.pending).length

theorem counted_new (t : Tables) (o : Options) : (new t o).Counted :=
  ⟨rfl, rfl, rfl, rfl, rfl⟩

/-! ## Tokens -/

theorem Counted.shifted (h : p.Counted) (term : Term) (span : Span) (target : StateId)
    (start : Nat) :
    ((p.consumed term span false).raised ⟨target, start, p.shiftBase, p.shiftTail⟩).Counted := by
  obtain ⟨hout, hmount, hmirrors, hitems, -⟩ := h
  have hpending := pending_consumed_unmounted hmount term span false
  refine ⟨hout, rfl, ?_, ?_, ?_⟩
  · show contentPlaces (p.consumed term span false).pending = _ :: _
    rw [hpending, contentPlaces_cons_content rfl, hmirrors]
    show _ = (p.items - p.mount) :: _
    rw [hitems, hmount, Nat.sub_zero]
    rfl
  · show p.items - p.mount + 1 = (p.consumed term span false).pending.length
    rw [hpending, hitems, hmount, List.length_cons, Nat.sub_zero]
  · show 0 = (trailingSkipped (p.consumed term span false).pending).length
    rw [hpending]
    rfl

theorem Counted.skipped (h : p.Counted) (term : Term) (span : Span) :
    (p.consumed term span true).Counted := by
  obtain ⟨hout, hmount, hmirrors, hitems, htail⟩ := h
  have hpending := pending_consumed_unmounted hmount term span true
  refine ⟨hout, rfl, ?_, ?_, ?_⟩
  · show contentPlaces (p.consumed term span true).pending = _
    rw [hpending, contentPlaces_cons_skipped rfl]
    exact hmirrors
  · show p.items - p.mount + 1 = (p.consumed term span true).pending.length
    rw [hpending, hitems, hmount, List.length_cons, Nat.sub_zero]
  · show p.skippedTail - p.mount + 1 = (trailingSkipped (p.consumed term span true).pending).length
    rw [hpending, htail, hmount]
    rfl

/-! ## Reductions -/

theorem Counted.counts_eq (h : p.Counted) {r : Reduction} {lowest : Frame}
    {trailing taken below : List Node} (hsplit : p.pending = trailing ++ (taken ++ below))
    (htrailing : trailing.length = p.skippedTail) (hbase : lowest.base = below.length) :
    (p.reduceEvent r false lowest).hoisted = trailing.length ∧
      (p.reduceEvent r false lowest).children = taken.length := by
  have hlength : p.items = trailing.length + (taken.length + below.length) := by
    rw [h.items_eq, hsplit, List.length_append, List.length_append]
  have hhoisted : (p.reduceEvent r false lowest).hoisted =
      min p.skippedTail (p.items - lowest.base) := rfl
  have hchildren : (p.reduceEvent r false lowest).children =
      p.items - lowest.base - (p.reduceEvent r false lowest).hoisted := rfl
  omega

/-- An empty reduction stands in front of the skipped nodes that trail. -/
theorem Counted.base_emptyFrame (h : p.Counted) :
    (p.emptyFrame false).base = (p.pending.dropWhile (·.skipped)).length := by
  have hsplit : (trailingSkipped p.pending).length + (p.pending.dropWhile (·.skipped)).length =
      p.pending.length := by
    rw [← List.length_append, trailingSkipped, List.takeWhile_append_dropWhile]
  have hfloor : p.floor = 0 := by rw [floor, h.outermost]
  have hbase : (p.emptyFrame false).base = max (p.items - p.skippedTail) p.floor := rfl
  have hitems := h.items_eq
  have htail := h.tail_eq
  omega

/-- A reduction at the frame of the oldest taken node takes what a split of the pending nodes says,
once the split fits the counters and the frames. -/
theorem Counted.takesPopped_of_split (h : p.Counted) {r : Reduction} {lowest : Frame}
    {trailing taken below : List Node} (hsplit : p.pending = trailing ++ (taken ++ below))
    (htrailing : trailing = trailingSkipped p.pending)
    (hbase : lowest.base = below.length) (hdepth : r.depth.toNat ≤ p.active.stack.above.length)
    (hbelow : contentPlaces below = (p.active.stack.above.drop r.depth.toNat).map Frame.base)
    (hnewest : ∀ n ∈ taken.head?, n.skipped = false)
    (holdest : ∀ n ∈ taken.getLast?, n.skipped = false)
    (hempty : r.depth.toNat = 0 → taken = []) :
    TakesPopped p.active.stack.above p.builder (p.reduceEvent r false lowest)
        trailing taken below ∧
      trailing = trailingSkipped p.pending ∧ lowest.base = below.length ∧
      (p.reduceEvent r false lowest).hoisted = trailing.length := by
  have hskipped : ∀ n ∈ trailing, n.skipped = true := htrailing ▸ trailingSkipped_all p.pending
  have hlength : trailing.length = p.skippedTail := by rw [htrailing, h.tail_eq]
  obtain ⟨hhoisted, hchildren⟩ := h.counts_eq (r := r) hsplit hlength hbase
  have hplaces : contentPlaces (taken ++ below) = p.active.stack.above.map Frame.base := by
    rw [← contentPlaces_append_skipped hskipped, ← hsplit, h.mirrors]
  have htaken : p.builder.taken (p.reduceEvent r false lowest).children
      (p.reduceEvent r false lowest).hoisted = taken.reverse := by
    rw [hhoisted, hchildren]
    exact TreeBuilder.taken_eq_of_split hsplit
  refine ⟨⟨hdepth, hsplit, hskipped, hplaces, hbelow, hnewest, holdest, hempty, htaken, ?_, ?_⟩,
    htrailing, hbase, hhoisted⟩
  · rw [TreeBuilder.children_reduceNode, htaken]
  · exact TreeBuilder.pending_add_reduce_of_split hsplit hhoisted hchildren

/-- The frame that a reduction stands on splits the pending nodes. -/
theorem Counted.takesPopped (h : p.Counted) {r : Reduction} {lowest : Frame} {stack : Stack}
    (hl : Stands p r false lowest stack) :
    stack.above = p.active.stack.above.drop r.depth.toNat ∧ ∃ trailing taken below,
      TakesPopped p.active.stack.above p.builder (p.reduceEvent r false lowest)
        trailing taken below ∧
      trailing = trailingSkipped p.pending ∧ lowest.base = below.length ∧
      (p.reduceEvent r false lowest).hoisted = trailing.length := by
  cases hl with
  | empty hd hc =>
    have hdepth : r.depth.toNat = 0 := by rw [hd]; rfl
    have hsplit : p.pending =
        trailingSkipped p.pending ++ ([] ++ p.pending.dropWhile (·.skipped)) :=
      List.takeWhile_append_dropWhile.symm
    refine ⟨by rw [hdepth, List.drop_zero], _, _, _, h.takesPopped_of_split hsplit rfl
      h.base_emptyFrame ?_ ?_ ?_ ?_ fun _ => rfl⟩
    · rw [hdepth]
      exact Nat.zero_le _
    · have hplaces := contentPlaces_append_skipped (trailingSkipped_all p.pending)
        ([] ++ p.pending.dropWhile (·.skipped))
      rw [← hsplit, h.mirrors] at hplaces
      rw [hdepth, List.drop_zero]
      exact hplaces.symm
    · simp
    · simp
  | @popped n f hd hf =>
    -- the node of the lowest popped frame splits the list, and what is newer splits further
    have hplace : (contentPlaces p.pending)[n]? = some lowest.base := by
      rw [h.mirrors, List.getElem?_map, hf]
      rfl
    obtain ⟨newer, node, below, hnodes, hnode, hlength, hbelow⟩ :=
      exists_split_of_contentPlaces hplace
    have htrailing : trailingSkipped newer = trailingSkipped p.pending := by
      rw [hnodes, trailingSkipped_append_cons hnode]
    have hsplit : p.pending =
        trailingSkipped newer ++ ((newer.dropWhile (·.skipped) ++ [node]) ++ below) := by
      calc p.pending = newer ++ node :: below := hnodes
        _ = (trailingSkipped newer ++ newer.dropWhile (·.skipped)) ++ node :: below := by
            rw [trailingSkipped, List.takeWhile_append_dropWhile]
        _ = _ := by simp only [List.append_assoc, List.singleton_append]
    have hlt := (List.getElem?_eq_some_iff.mp hf).1
    refine ⟨by rw [hd]; rfl, _, _, _, h.takesPopped_of_split hsplit htrailing hlength.symm ?_ ?_
      (content_of_head? hnode) ?_ fun h0 => ?_⟩
    · omega
    · rw [hd, hbelow, h.mirrors, List.map_drop]
    · intro last hlast
      obtain rfl : node = last := by simpa using hlast
      exact hnode
    · omega

theorem Counted.reduced (h : p.Counted) {r : Reduction} {lowest : Frame} {stack : Stack}
    (hl : Stands p r false lowest stack) (target : StateId) :
    (((p.withStack stack).reduced (p.reduceEvent r false lowest) lowest).raised
      ⟨target, lowest.start, lowest.base, lowest.tail⟩).Counted := by
  obtain ⟨habove, trailing, taken, below, htakes, -, hbase, hhoisted⟩ := h.takesPopped hl
  have hnode : (p.builder.reduceNode (p.reduceEvent r false lowest)).skipped = false := rfl
  refine ⟨h.outermost, h.unmounted, ?_, ?_, ?_⟩
  · show contentPlaces (p.builder.add (.reduce _)).pending =
      lowest.base :: stack.above.map Frame.base
    rw [htakes.pending_after, contentPlaces_append_skipped htakes.trailing_skipped,
      contentPlaces_cons_content hnode, htakes.places_below, hbase, habove]
    rfl
  · show lowest.base + 1 + (p.reduceEvent r false lowest).hoisted =
      (p.builder.add (.reduce _)).pending.length
    rw [htakes.pending_after, hbase, hhoisted, List.length_append, List.length_cons]
    omega
  · show (p.reduceEvent r false lowest).hoisted =
      (trailingSkipped (p.builder.add (.reduce _)).pending).length
    rw [htakes.pending_after, hhoisted, trailingSkipped,
      List.takeWhile_append_of_pos htakes.trailing_skipped,
      List.takeWhile_cons_of_neg (by simp [hnode]), List.append_nil]

/-! ## Steps -/

theorem Counted.recovered (h : p.Counted) (d : Diagnostic) : (p.recovered d).Counted :=
  ⟨h.outermost, h.unmounted, h.mirrors, h.items_eq, h.tail_eq⟩

theorem Counted.closed (h : p.Counted) : p.closed.Counted :=
  ⟨h.outermost, h.unmounted, h.mirrors, h.items_eq, h.tail_eq⟩

section Plain

variable (hp : p.tables.Plain)

include hp

theorem Counted.of_applies (h : p.Counted) {term : Term} {a : Action} {made : Step}
    (ha : p.tables.action p.state term = .ok (some a))
    (happlies : Applies term token p a (.ok made q)) : q.Counted := by
  cases happlies with
  | shift ht hd hs lands =>
    rw [hp.skipless _ _ hd] at lands
    rw [lands.eq_raised hp.nestless]
    exact h.shifted _ _ _ _
  | push => exact absurd ha (hp.pushless _ _ _)
  | skip => exact h.skipped _ _
  | reduce hd reduces =>
    rw [hp.skipless _ _ hd] at reduces
    cases reduces with
    | stays hl hstay =>
      rw [hp.stayless _ _ _ ha] at hstay
      cases hstay
    | goes hl _ _ _ lands =>
      rw [lands.eq_raised hp.nestless]
      exact h.reduced hl _

/-- A step without an error keeps the counts right. -/
theorem Counted.of_outcome (h : p.Counted) {made : Step}
    (hout : Outcome token p (.ok made q)) : q.Counted := by
  cases hout with
  | accepted =>
    rw [h.outermost]
    exact h.closed
  | resolved _ _ ha applies => exact h.of_applies hp ha applies
  | recovered _ _ _ _ ha applies =>
    exact (h.recovered _).of_applies (p := p.recovered _) hp ha applies

end Plain

/-! ## Reported reductions -/

/-- A step on `p` that comes to `r` reports the reduction `e`, after the events `earlier`. -/
def Reports (p : Parse) (r : Result) (earlier : List Event) (e : ReduceEvent) : Prop :=
  ∃ later, r.parse.log = later ++ .reduce e :: (earlier ++ p.log)

/-- An action reports a single event at most, and if that is a reduction, the frame that it stands
on is known. -/
theorem Applies.exists_reported {term : Term} {a : Action} {r : Result}
    (h : Applies term token p a r) :
    ∃ reported, r.parse.log = reported ++ p.log ∧ ∀ e, .reduce e ∈ reported →
      reported = [.reduce e] ∧ ∃ d red lowest stack, p.tables.descriptor p.state = .ok d ∧
        Stands p red d.isSkipped lowest stack ∧ e = p.reduceEvent red d.isSkipped lowest := by
  cases h with
  | unspanned => exact ⟨[], rfl, by simp⟩
  | shift _ _ _ lands => exact ⟨[.shift _], lands.log_eq, by simp⟩
  | push _ lands => exact ⟨[], lands.log_eq, by simp⟩
  | skip => exact ⟨[.shift _], rfl, by simp⟩
  | @reduce red d _ hd reduces =>
    have hone : ∀ {lowest stack}, Stands p red d.isSkipped lowest stack → ∀ e,
        .reduce e ∈ [Event.reduce (p.reduceEvent red d.isSkipped lowest)] →
        [Event.reduce (p.reduceEvent red d.isSkipped lowest)] = [.reduce e] ∧
          ∃ d red lowest stack, p.tables.descriptor p.state = .ok d ∧
            Stands p red d.isSkipped lowest stack ∧ e = p.reduceEvent red d.isSkipped lowest := by
      intro lowest stack hl e he
      obtain rfl : e = p.reduceEvent red d.isSkipped lowest := by simpa using he
      exact ⟨rfl, _, _, _, _, hd, hl, rfl⟩
    cases reduces with
    | underflow => exact ⟨[], rfl, by simp⟩
    | uncounted => exact ⟨[], rfl, by simp⟩
    | missing => exact ⟨[], rfl, by simp⟩
    | stays hl _ => exact ⟨[.reduce _], rfl, hone hl⟩
    | goes hl _ _ _ lands => exact ⟨[.reduce _], lands.log_eq, hone hl⟩

theorem Reports.log_ne {r : Result} {earlier : List Event} {e : ReduceEvent}
    (h : Reports p r earlier e) : r.parse.log ≠ p.log := by
  obtain ⟨later, h⟩ := h
  intro hsame
  have hlength := congrArg List.length (hsame.symm.trans h)
  simp only [List.length_append, List.length_cons] at hlength
  omega

/-- Where an action is applied behind some events without a reduction, a reduction that is reported
comes right behind them. -/
theorem Applies.stands_of_reports {x : Parse} {term : Term} {a : Action} {r : Result}
    (h : Applies term token x a r) {started earlier : List Event} {e : ReduceEvent}
    (hx : x.log = started ++ p.log) (hstarted : .reduce e ∉ started) (he : Reports p r earlier e) :
    started = earlier ∧ ∃ d red lowest stack, x.tables.descriptor x.state = .ok d ∧
      Stands x red d.isSkipped lowest stack ∧ e = x.reduceEvent red d.isSkipped lowest := by
  obtain ⟨reported, hlog, hreported⟩ := h.exists_reported
  obtain ⟨later, he⟩ := he
  have hevents : reported ++ started = later ++ .reduce e :: earlier := by
    rw [hlog, hx, ← List.append_assoc, ← List.cons_append, ← List.append_assoc] at he
    exact List.append_cancel_right he
  have hmem : .reduce e ∈ reported ++ started := by
    rw [hevents]
    exact List.mem_append_cons_self
  obtain ⟨hone, hstands⟩ := hreported e ((List.mem_append.mp hmem).resolve_right hstarted)
  refine ⟨?_, hstands⟩
  rw [hone] at hevents
  cases later with
  | nil => exact (List.cons.inj hevents).2
  | cons first later =>
    have hrest : started = later ++ .reduce e :: earlier := (List.cons.inj hevents).2
    exact absurd (hrest ▸ List.mem_append_cons_self) hstarted

/-- The reduction that a step reports stands on a frame of the parse in front of the step, or behind
a recovery, of the parse that has followed the diagnostic. -/
theorem Outcome.exists_reported {r : Result} (hout : Outcome token p r) {earlier : List Event}
    {e : ReduceEvent} (he : Reports p r earlier e) :
    ∃ x, (x = p ∨ ∃ d, x = p.recovered d) ∧ x.log = earlier ++ p.log ∧
      ∃ d red lowest stack, x.tables.descriptor x.state = .ok d ∧
        Stands x red d.isSkipped lowest stack ∧ e = x.reduceEvent red d.isSkipped lowest := by
  cases hout with
  | finished => exact absurd rfl he.log_ne
  | mismatched => exact absurd rfl he.log_ne
  | accepted =>
    refine absurd ?_ he.log_ne
    show (if p.suspended.isEmpty then p.closed else p).log = p.log
    split <;> rfl
  | resolved _ _ _ applies =>
    have hfirst : p.log = [] ++ p.log := rfl
    obtain ⟨rfl, hstands⟩ := applies.stands_of_reports hfirst List.not_mem_nil he
    exact ⟨p, .inl rfl, rfl, hstands⟩
  | @recovered m a _ _ _ _ _ _ applies =>
    have hfirst : (p.recovered ⟨m, a.consumes⟩).log = [.diagnostic ⟨m, a.consumes⟩] ++ p.log := rfl
    obtain ⟨rfl, hstands⟩ := applies.stands_of_reports hfirst (by simp) he
    exact ⟨p.recovered _, .inr ⟨_, rfl⟩, rfl, hstands⟩

/-- The reduction that a step reports takes the nodes of the frames that it pops, also if the step
fails behind it. -/
theorem Counted.takesPopped_of_outcome (h : p.Counted) (hp : p.tables.Plain) {r : Result}
    (hout : Outcome token p r) {earlier : List Event} {e : ReduceEvent}
    (he : Reports p r earlier e) : ∃ trailing taken below,
      TakesPopped p.active.stack.above (.ofLog (earlier ++ p.log)) e trailing taken below := by
  obtain ⟨x, hx, hlog, d, red, lowest, stack, hd, hl, rfl⟩ := hout.exists_reported he
  obtain ⟨hactive, hcounted⟩ : x.active = p.active ∧ x.Counted := by
    rcases hx with rfl | ⟨d, rfl⟩
    · exact ⟨rfl, h⟩
    · exact ⟨rfl, h.recovered d⟩
  have hplain : x.tables.Plain := by
    unfold tables at hp ⊢
    rwa [hactive]
  rw [hplain.skipless _ _ hd] at hl ⊢
  obtain ⟨-, trailing, taken, below, htakes, -⟩ := hcounted.takesPopped hl
  rw [hactive] at htakes
  rw [← hlog]
  exact ⟨trailing, taken, below, htakes⟩

/-! ## Runs -/

theorem Counted.tables_eq (h : p.Counted) (hs : Sound t p) : p.tables = t :=
  hs.nesting.eq_of_nil h.outermost

theorem Visited.counted (hv : t.Valid) (hp : t.Plain) {x : Point}
    (h : Visited t o .cautious x) : x.parse.Counted := by
  induction h with
  | refl => exact counted_new t o
  | tail hpath hm ih =>
    have hsound := Visited.sound hv hpath
    cases hm with
    | callStep => exact ih
    | callAdvance => exact ih
    | close => exact ih
    | feed => exact ih
    | made _ _ hstep =>
      have htables := ih.tables_eq hsound
      exact ih.of_outcome (htables ▸ hp) (hsound.step hv hstep).1
    | left hleave =>
      rw [run_leave, ih.outermost] at hleave
      cases hleave
      exact ih
    | failed _ hu => exact hu.elim

/-- Over plain tables, up to the first error of any calls, the frames above the base frame mirror
the pending nodes that are not skipped: between the calls, and at every point inside a call. And at
every point, whatever a step reports as a reduction takes exactly the nodes of the frames that it
pops, with the skipped nodes between them. -/
theorem mirrors_and_takesPopped (hv : t.Valid) (hp : t.Plain) (o : Options) :
    (∀ {p}, Reachable t o .cautious p → p.Mirrors) ∧
    ∀ {x}, Visited t o .cautious x → x.parse.Mirrors ∧ ∀ token earlier e,
      Reports x.parse (step token x.parse) earlier e → ∃ trailing taken below,
        TakesPopped x.parse.active.stack.above (.ofLog (earlier ++ x.parse.log)) e
          trailing taken below := by
  refine ⟨fun h => (h.visited.counted hv hp).mirrors, fun {x} h => ?_⟩
  have hcounted := h.counted hv hp
  refine ⟨hcounted.mirrors, fun token earlier e he => ?_⟩
  have hsound := Visited.sound hv h
  have htables := hcounted.tables_eq hsound
  exact hcounted.takesPopped_of_outcome (htables ▸ hp) (hsound.outcome hv token) he

/-- A blank behind the first number of a sum is hoisted out of the number's reduction on a plus,
whose node has the number for its only child. -/
theorem mirrors_and_takesPopped_of_number :
    Grammar.sum.Valid ∧ Grammar.sum.Plain ∧ ∃ p e, Reachable Grammar.sum {} .cautious p ∧
      p.Mirrors ∧ Reports p (step ⟨5, 2, 1⟩ p) [] e ∧ e.depth = 1 ∧ e.hoisted = 1 ∧
      ∃ trailing taken below, TakesPopped p.active.stack.above p.builder e trailing taken below ∧
        trailing.map Node.term = [8] ∧ taken.map Node.term = [3] ∧ below = [] ∧
        (p.builder.reduceNode e).children = taken := by
  have hv := Grammar.sum_obtained.valid
  have hp : Reachable Grammar.sum {} .cautious _ :=
    (Reachable.new.ok (.advance ⟨3, 0, 1⟩) 2 trivial rfl).ok (.advance ⟨8, 1, 1⟩) 2 trivial rfl
  obtain ⟨hbetween, hinside⟩ := mirrors_and_takesPopped hv Grammar.sum_plain {}
  refine ⟨hv, Grammar.sum_plain, _, ⟨7, ⟨0, 1⟩, 1, 1, 1, false, false⟩, hp, hbetween hp, ?_⟩
  have hreports := (hinside hp.visited).2 ⟨5, 2, 1⟩ [] ⟨7, ⟨0, 1⟩, 1, 1, 1, false, false⟩
  obtain ⟨trailing, taken, below, htakes⟩ := hreports ⟨[], rfl⟩
  let number : Node := ⟨0, 3, ⟨0, 1⟩, [], true, false, false⟩
  let blank : Node := ⟨1, 8, ⟨1, 2⟩, [], true, true, false⟩
  have hreversed : [number] = taken.reverse := htakes.children_eq
  obtain rfl : taken = [number] := by rw [← List.reverse_reverse taken, ← hreversed]; rfl
  have hpending : [blank, number] = trailing ++ ([number] ++ below) := htakes.pending_eq
  obtain ⟨rfl, rfl⟩ : trailing = [blank] ∧ below = [] := by
    match trailing, hpending with
    | [], h => exact absurd (congrArg Node.id (List.cons.inj h).1) (by decide)
    | [first], h => simpa using h.symm
    | _ :: _ :: _, h => simp at h
  exact ⟨⟨[], rfl⟩, rfl, rfl, _, _, _, htakes, rfl, rfl, rfl, htakes.node_children⟩

end Parse

end LRMachine
