import LRMachine.Proofs.Correspondence
import LRMachine.Proofs.SingleGrammar

/-!
# Steps over plain tables

On plain tables a parse without an error is known by the states on its stack and the pending nodes
(`Parse.Standing`). A shift adds a state, a reduction replaces states by the goto of the one under
them, and both say what becomes of the pending nodes. Where no node is skipped, a reduction takes as
many nodes as it pops frames (`Standing.takes_newest`).
-/

namespace LRMachine

theorem Storage.resolve_of_readings_eq_nil {s : Storage} {state : StateId} {raw : Term}
    {found : Option Action} (hreadings : s.readings raw = [])
    (ha : s.action state raw = .ok found) :
    s.resolve state raw = .ok (found.map (raw, ·)) := by
  rw [resolve, hreadings, resolve.go, ha]
  cases found <;> rfl

namespace Parse

variable {t : Tables} {token : Token} {p : Parse} {state : StateId} {below : List StateId}

/-- A parse over plain tables under the default limit has the given states on its stack, the newest
first. -/
structure Standing (t : Tables) (p : Parse) (states : List StateId) : Prop where
  alone : Alone t p
  counted : p.Counted
  running : p.finished = false
  limit_eq : p.active.stack.limit = 65536
  states_eq : p.active.stack.frames.map Frame.state = states

theorem standing_new (hv : t.Valid) : Standing t (new t {}) [t.start] :=
  ⟨alone_new hv {}, counted_new t {}, rfl, rfl, rfl⟩

namespace Standing

theorem state_eq (h : Standing t p (state :: below)) : p.state = state :=
  Stack.state_of_frames h.states_eq

theorem height_eq (h : Standing t p (state :: below)) :
    p.active.stack.height = below.length := by
  have hlength := congrArg List.length h.states_eq
  rw [List.length_map, Stack.length_frames, List.length_cons, Stack.length] at hlength
  omega

theorem exists_stands (h : Standing t p (state :: below)) {r : Reduction}
    (hdepth : r.depth.toNat ≤ below.length) : ∃ lowest stack, Stands p r false lowest stack ∧
      stack.limit = 65536 ∧ stack.frames.map Frame.state =
        (state :: below).drop r.depth.toNat := by
  cases hn : r.depth.toNat with
  | zero =>
    have htail : p.skippedTail ≤ p.items := by
      rw [h.counted.tail_eq, h.counted.items_eq]
      exact (List.takeWhile_sublist _).length_le
    exact ⟨_, _, .empty (UInt16.toNat_inj.mp hn) (.inr htail), h.limit_eq, h.states_eq⟩
  | succ n =>
    have hheight := h.height_eq
    have habove := p.active.stack.height_eq
    have hlt : n < p.active.stack.above.length := by omega
    refine ⟨_, _, .popped hn (List.getElem?_eq_getElem hlt), h.limit_eq, ?_⟩
    rw [Stack.frames_lower _ (by omega), List.map_drop, h.states_eq]

section Plain

variable (hp : t.Plain)

include hp

theorem tables_eq {states : List StateId} (h : Standing t p states) : p.tables = t :=
  h.alone.sound.tables_eq hp.nestless

theorem state_lt (h : Standing t p (state :: below)) : state.toNat < t.stateCount := by
  have hlt := h.alone.sound.inTables.top
  have htables : p.active.tables = t := h.tables_eq hp
  have hstate : p.active.stack.state = state := h.state_eq
  rwa [hstate, htables] at hlt

/-- A step that does not accept does what the reading of its token says. -/
theorem step_eq (h : Standing t p (state :: below)) {d : Descriptor}
    (hd : t.descriptor state = .ok d) (ha : token.term = Term.eof → d.isAccepting = false) :
    step token p = match t.resolve state token.term with
      | .ok (some (term, a)) => apply term a token p
      | .ok none => recover token p
      | .error e => .error (.error e) p := by
  have hd' : p.tables.descriptor p.state = .ok d := by rw [h.tables_eq hp, h.state_eq, hd]
  have hstep := run_step h.running hd' ha
  rw [h.tables_eq hp, h.state_eq] at hstep
  exact hstep

theorem step_accepted (h : Standing t p (state :: below)) {d : Descriptor}
    (hd : t.descriptor state = .ok d) (ha : d.isAccepting = true) (ht : token.term = Term.eof) :
    step token p = .ok .accepted p.closed := by
  have hd' : p.tables.descriptor p.state = .ok d := by rw [h.tables_eq hp, h.state_eq, hd]
  exact run_step_accepting h.running hd' ht ha h.counted.outermost

variable (hv : t.Valid)

include hv

theorem step_shift (h : Standing t p (state :: below)) {d : Descriptor}
    (hd : t.descriptor state = .ok d) (ha : token.term = Term.eof → d.isAccepting = false)
    {term : Term} {target : StateId}
    (hresolve : t.resolve state token.term = .ok (some (term, .shift target)))
    (ht : target.toNat < t.stateCount) (hroom : below.length < 65535) {span : Span}
    (hs : token.span? = some span) :
    step token p = .ok .shifted ((p.consumed term span false).raised
        ⟨target, token.start, p.shiftBase, p.shiftTail⟩) ∧
      Standing t ((p.consumed term span false).raised
        ⟨target, token.start, p.shiftBase, p.shiftTail⟩) (target :: state :: below) := by
  obtain ⟨d', hd'⟩ := Storage.exists_descriptor ht
  have htables := h.tables_eq hp
  have hlength : p.active.stack.length < p.active.stack.limit := by
    rw [h.limit_eq, Stack.length, h.height_eq]
    omega
  have hstep : step token p = .ok .shifted ((p.consumed term span false).raised
      ⟨target, token.start, p.shiftBase, p.shiftTail⟩) := by
    rw [h.step_eq hp hd ha, hresolve, ← hp.skipless _ _ hd']
    exact run_shift (htables ▸ hv) (htables ▸ hp.nestless) (htables ▸ ht) (htables ▸ hd') hs
      hlength
  exact ⟨hstep, (h.alone.step hv hstep).2, h.counted.shifted _ _ _ _, h.running, h.limit_eq,
    congrArg (target :: ·) h.states_eq⟩

theorem step_reduce (h : Standing t p (state :: below)) {d : Descriptor}
    (hd : t.descriptor state = .ok d) (ha : token.term = Term.eof → d.isAccepting = false)
    {term : Term} {r : Reduction} {under target : StateId} {rest : List StateId}
    (hresolve : t.resolve state token.term = .ok (some (term, .reduce r))) (hstay : r.stays = false)
    (hdepth : r.depth.toNat ≤ below.length) (hroom : below.length < 65535)
    (hunder : (state :: below).drop r.depth.toNat = under :: rest)
    (hgoto : t.goto under r.term = .ok (some target)) (ht : target.toNat < t.stateCount) :
    ∃ lowest stack, Stands p r false lowest stack ∧
      step token p = .ok .reduced (((p.withStack stack).reduced (p.reduceEvent r false lowest)
        lowest).raised ⟨target, lowest.start, lowest.base, lowest.tail⟩) ∧
      Standing t (((p.withStack stack).reduced (p.reduceEvent r false lowest) lowest).raised
        ⟨target, lowest.start, lowest.base, lowest.tail⟩) (target :: under :: rest) := by
  obtain ⟨lowest, stack, hl, hlimit, hstates⟩ := h.exists_stands hdepth
  rw [hunder] at hstates
  have htables := h.tables_eq hp
  have hlength : stack.length < stack.limit := by
    have hrest := congrArg List.length hunder
    have hheight := congrArg List.length hstates
    rw [List.length_map, Stack.length_frames] at hheight
    rw [List.length_drop, List.length_cons] at hrest
    rw [hlimit, hheight]
    omega
  have hstep : step token p = .ok .reduced (((p.withStack stack).reduced
      (p.reduceEvent r false lowest) lowest).raised
        ⟨target, lowest.start, lowest.base, lowest.tail⟩) := by
    rw [h.step_eq hp hd ha, hresolve, ← hp.skipless _ _ hd]
    refine run_reduce (htables ▸ hv) (htables ▸ hp.nestless) ?_ ?_ hstay ?_ (htables ▸ ht) hlength
    · rw [htables, h.state_eq, hd]
    · rwa [hp.skipless _ _ hd]
    · rw [htables, Stack.state_of_frames hstates]
      exact hgoto
  exact ⟨lowest, stack, hl, hstep, (h.alone.step hv hstep).2, h.counted.reduced hl target,
    h.running, hlimit, congrArg (target :: ·) hstates⟩

end Plain

/-! ## Nodes that are not skipped -/

/-- Where no pending node is skipped, a reduction takes as many of the newest nodes as it pops
frames, and its node comes in their place. -/
theorem takes_newest (h : Standing t p (state :: below))
    (hcontent : ∀ n ∈ p.pending, n.skipped = false) {r : Reduction} {lowest : Frame} {stack : Stack}
    (hl : Stands p r false lowest stack) :
    p.builder.taken (p.reduceEvent r false lowest).children
        (p.reduceEvent r false lowest).hoisted = (p.pending.take r.depth.toNat).reverse ∧
      (p.builder.add (.reduce (p.reduceEvent r false lowest))).pending =
        p.builder.reduceNode (p.reduceEvent r false lowest) :: p.pending.drop r.depth.toNat := by
  obtain ⟨-, trailing, taken, older, htakes, -, -, -⟩ := h.counted.takesPopped hl
  have hpending : p.pending = trailing ++ (taken ++ older) := htakes.pending_eq
  obtain rfl : trailing = [] := by
    refine List.eq_nil_iff_forall_not_mem.mpr fun n hn => ?_
    have hskipped := htakes.trailing_skipped n hn
    rw [hcontent n (by rw [hpending]; exact List.mem_append_left _ hn)] at hskipped
    cases hskipped
  rw [List.nil_append] at hpending
  -- the places count the nodes, and the frames above the base frame count the places
  have hall := congrArg List.length htakes.places
  have hbelow := congrArg List.length htakes.places_below
  rw [length_contentPlaces fun n hn => hcontent n (hpending ▸ hn), List.length_map,
    List.length_append] at hall
  rw [length_contentPlaces fun n hn => hcontent n (hpending ▸ List.mem_append_right _ hn),
    List.length_map, List.length_drop] at hbelow
  have hdepth := htakes.depth_le
  have hlength : taken.length = r.depth.toNat := by
    have he : (p.reduceEvent r false lowest).depth = r.depth.toNat := rfl
    omega
  rw [hpending, ← hlength, List.take_left, List.drop_left]
  exact ⟨htakes.children_eq, htakes.pending_after⟩

end Standing

/-- The node of a token that was consumed under the given term. -/
structure IsLeaf (term : Term) (token : Token) (n : Node) : Prop where
  term_eq : n.term = term
  span_eq : token.span? = some n.span
  isToken : n.isToken = true
  children_eq : n.children = []
  skipped_eq : n.skipped = false
  repeats_eq : n.repeats = false

/-- The node of a reduction that took the given items. -/
structure IsNodeOf (r : Reduction) (items : List Node) (n : Node) : Prop where
  term_eq : n.term = r.term
  isToken : n.isToken = false
  children_eq : n.children = TreeBuilder.flatten r.term items
  skipped_eq : n.skipped = false
  repeats_eq : n.repeats = (r.repeats || items.any (TreeBuilder.dissolves r.term))

/-- A parse has the given states on its stack and the given nodes pending, none of them skipped. -/
structure Holding (t : Tables) (p : Parse) (states : List StateId) (nodes : List Node) : Prop
    extends Standing t p states where
  pending_eq : p.pending = nodes
  content : ∀ n ∈ nodes, n.skipped = false

theorem holding_new (hv : t.Valid) : Holding t (new t {}) [t.start] [] :=
  ⟨standing_new hv, rfl, by simp⟩

namespace Holding

variable {nodes : List Node} (hp : t.Plain) (hv : t.Valid)

include hp hv

theorem step_shift (h : Holding t p (state :: below) nodes) {d : Descriptor}
    (hd : t.descriptor state = .ok d) (ha : token.term = Term.eof → d.isAccepting = false)
    {term : Term} {target : StateId}
    (hresolve : t.resolve state token.term = .ok (some (term, .shift target)))
    (ht : target.toNat < t.stateCount) (hroom : below.length < 65535)
    (hs : token.stop?.isSome = true) :
    ∃ q n e, step token p = .ok .shifted q ∧ Holding t q (target :: state :: below) (n :: nodes) ∧
      IsLeaf term token n ∧ q.log = .shift e :: p.log := by
  obtain ⟨span, hspan⟩ := Token.exists_span hs
  obtain ⟨hstep, hq⟩ := h.toStanding.step_shift hp hv hd ha hresolve ht hroom hspan
  have hpending := pending_consumed_unmounted h.counted.unmounted term span false
  refine ⟨_, p.builder.shiftNode ⟨term, span, 0, false⟩, _, hstep, ⟨hq, ?_, ?_⟩,
    ⟨rfl, hspan, rfl, rfl, rfl, rfl⟩, rfl⟩
  · rw [← h.pending_eq]
    exact hpending
  · exact List.forall_mem_cons.mpr ⟨rfl, h.content⟩

/-- A reduction takes as many of the newest nodes as it pops frames. -/
theorem step_reduce (h : Holding t p (state :: below) nodes) {d : Descriptor}
    (hd : t.descriptor state = .ok d) (ha : token.term = Term.eof → d.isAccepting = false)
    {term : Term} {r : Reduction} {under target : StateId} {rest : List StateId}
    (hresolve : t.resolve state token.term = .ok (some (term, .reduce r))) (hstay : r.stays = false)
    (hdepth : r.depth.toNat ≤ below.length) (hroom : below.length < 65535)
    (hunder : (state :: below).drop r.depth.toNat = under :: rest)
    (hgoto : t.goto under r.term = .ok (some target)) (ht : target.toNat < t.stateCount) :
    ∃ q n e, step token p = .ok .reduced q ∧
      Holding t q (target :: under :: rest) (n :: nodes.drop r.depth.toNat) ∧
      IsNodeOf r (nodes.take r.depth.toNat).reverse n ∧
      q.log = .reduce e :: p.log ∧ e.term = r.term ∧ e.repeats = r.repeats := by
  obtain ⟨lowest, stack, hl, hstep, hq⟩ :=
    h.toStanding.step_reduce hp hv hd ha hresolve hstay hdepth hroom hunder hgoto ht
  obtain ⟨htaken, hpending⟩ :=
    h.toStanding.takes_newest (h.pending_eq ▸ h.content) hl
  rw [h.pending_eq] at htaken hpending
  refine ⟨_, p.builder.reduceNode (p.reduceEvent r false lowest), _, hstep, ⟨hq, hpending, ?_⟩,
    ⟨rfl, rfl, ?_, rfl, ?_⟩, rfl, rfl, rfl⟩
  · exact List.forall_mem_cons.mpr ⟨rfl, fun n hn => h.content n (List.mem_of_mem_drop hn)⟩
  · rw [← htaken]
    rfl
  · rw [← htaken]
    rfl

end Holding

end Parse

end LRMachine
