import LRMachine.Proofs.Balance
import LRMachine.Proofs.Evaluation
import LRMachine.Proofs.SingleGrammar

/-!
# Lockstep of the automaton and the consumer

The automaton predicts the length of the consumer's list and which of its newest nodes are skipped;
a frame keeps such a prediction about the nodes below it (`SkippedBelow`) until it is popped. Over
orderly tables of a single grammar every prediction holds, after errors too (`Parse.Recalls`). Hence
the items are counted right, and a reduction is told to take no more nodes than are pending and to
hoist skipped nodes only (`items_eq_and_serves`).
-/

namespace LRMachine

/-! ## Predictions about the list -/

/-- Of the `base` oldest nodes, the `tail` newest are skipped; the list has the newest node
first. -/
def SkippedBelow (nodes : List Node) (base tail : Nat) : Prop :=
  ∀ older, older <:+ nodes → older.length = base → ∀ n ∈ older.take tail, n.skipped = true

theorem SkippedBelow.of_suffix {nodes nodes' kept : List Node} {base tail : Nat}
    (h : SkippedBelow nodes base tail) (hkept : kept <:+ nodes) (hkept' : kept <:+ nodes')
    (hle : base ≤ kept.length) : SkippedBelow nodes' base tail := by
  intro older holder hlen
  have hwithin : older <:+ kept :=
    List.suffix_of_suffix_length_le holder hkept' (by omega)
  exact h older (hwithin.trans hkept) hlen

theorem skippedBelow_length_iff {nodes : List Node} {tail : Nat} :
    SkippedBelow nodes nodes.length tail ↔ ∀ n ∈ nodes.take tail, n.skipped = true := by
  refine ⟨fun h => h nodes List.suffix_rfl rfl, fun h older holder hlen => ?_⟩
  rwa [holder.eq_of_length hlen]

theorem skippedBelow_zero (nodes : List Node) (base : Nat) : SkippedBelow nodes base 0 := by
  intro older _ _ n hn
  simp at hn

theorem Descends.base_le {floor : Nat} {f : Frame} :
    ∀ {frames : List Frame} {room : Nat}, Descends floor room frames → f ∈ frames →
      f.base ≤ room := by
  intro frames
  induction frames with
  | nil => intro room _ hf; cases hf
  | cons first older ih =>
    intro room h hf
    rcases List.mem_cons.mp hf with rfl | hf
    · exact h.1
    · exact Nat.le_trans (ih h.2 hf) h.1

/-! ## What a reduction is told -/

/-- The builder has all the nodes that a reduction takes and hoists, and the hoisted ones are
skipped. -/
structure TreeBuilder.Serves (b : TreeBuilder) (e : ReduceEvent) : Prop where
  enough : e.children + e.hoisted ≤ b.pending.length
  hoisted_skipped : ∀ n ∈ b.pending.take e.hoisted, n.skipped = true

/-- Every reduction in a log, which has the newest event first, was served when it came. -/
def Served (log : List Event) : Prop :=
  ∀ later e earlier, log = later ++ .reduce e :: earlier → (TreeBuilder.ofLog earlier).Serves e

theorem served_cons {log : List Event} {event : Event} (h : Served log)
    (hevent : ∀ e, event = .reduce e → (TreeBuilder.ofLog log).Serves e) :
    Served (event :: log) := by
  intro later e earlier heq
  cases later with
  | nil =>
    obtain ⟨rfl, rfl⟩ := List.cons.inj heq
    exact hevent e rfl
  | cons first later => exact h later e earlier (List.cons.inj heq).2

namespace Parse

variable {t : Tables} {o : Options} {token : Token} {p q : Parse}

/-- What the counters and the frames say about skipped nodes holds of the pending nodes, and the
reductions so far were served. -/
structure Recalls (p : Parse) : Prop where
  trailing : SkippedBelow p.pending p.items p.skippedTail
  frames : ∀ f ∈ p.active.stack.above, SkippedBelow p.pending f.base f.tail
  served : Served p.log

theorem recalls_new (t : Tables) (o : Options) : (new t o).Recalls where
  trailing := skippedBelow_zero _ _
  frames f hf := by cases hf
  served later e earlier h := by simp [new] at h

theorem Recalls.raised (h : p.Recalls) {f : Frame} (hf : SkippedBelow p.pending f.base f.tail) :
    (p.raised f).Recalls := by
  refine ⟨h.trailing, fun g hg => ?_, h.served⟩
  rcases List.mem_cons.mp hg with rfl | hg
  · exact hf
  · exact h.frames g hg

theorem Recalls.recovered (h : p.Recalls) (d : Diagnostic) : (p.recovered d).Recalls :=
  ⟨h.trailing, h.frames, served_cons h.served fun _ he => by cases he⟩

theorem Lands.recalls {f : Frame} {start : Nat} {made : Step} {r : Result}
    (l : Lands p f start made r) (hn : p.tables.Nestless) (h : p.Recalls)
    (hf : SkippedBelow p.pending f.base f.tail) : r.parse.Recalls := by
  rcases l.of_nestless hn with ⟨-, rfl⟩ | ⟨-, rfl⟩
  · exact h
  · exact h.raised hf

/-! ## Tokens -/

theorem Recalls.consumed (h : p.Recalls) (hb : Balanced t p) (hm : p.mount = 0) (term : Term)
    (span : Span) (skipped : Bool) :
    (p.consumed term span skipped).Recalls ∧
      SkippedBelow (p.consumed term span skipped).pending p.shiftBase p.shiftTail := by
  have hpending := pending_consumed_unmounted hm term span skipped
  generalize hnew : p.builder.shiftNode ⟨term, span, 0, skipped⟩ = node at hpending
  have hnode : node.skipped = skipped := by rw [← hnew]; rfl
  have hitems := hb.items_eq
  have hbase : p.shiftBase = p.items := by rw [shiftBase, hm, Nat.sub_zero]
  have htail : p.shiftTail = p.skippedTail := by rw [shiftTail, hm, Nat.sub_zero]
  have hsuffix : p.pending <:+ (p.consumed term span skipped).pending := by
    rw [hpending]
    exact List.suffix_cons _ _
  refine ⟨⟨?_, fun f hf => ?_, ?_⟩, ?_⟩
  · have hcount : (p.consumed term span skipped).items =
        (p.consumed term span skipped).pending.length := by
      show p.shiftBase + 1 = _
      rw [hpending, hbase, hitems, List.length_cons]
    rw [hcount, skippedBelow_length_iff, hpending]
    show ∀ n ∈ (node :: p.pending).take (if skipped then p.shiftTail + 1 else 0), n.skipped = true
    -- a skipped token joins what trails, and nothing trails any other
    cases skipped with
    | false => simp
    | true =>
      have hskipped : ∀ n ∈ p.pending.take p.skippedTail, n.skipped = true := by
        rw [← skippedBelow_length_iff, ← hitems]
        exact h.trailing
      simpa [htail, hnode] using hskipped
  · obtain ⟨room, hroom, -, hd⟩ := hb.fits
    have hle := hd.base_le hf
    exact (h.frames f hf).of_suffix List.suffix_rfl hsuffix (by omega)
  · exact served_cons h.served fun _ he => by cases he
  · rw [hbase, htail]
    exact h.trailing.of_suffix List.suffix_rfl hsuffix (by omega)

/-! ## Reductions -/

theorem hoisted_le (p : Parse) (r : Reduction) (skipped : Bool) (lowest : Frame) :
    (p.reduceEvent r skipped lowest).hoisted ≤ p.skippedTail := by
  show (if skipped then 0 else min p.skippedTail (p.items - lowest.base)) ≤ p.skippedTail
  split <;> omega

/-- The frame that a reduction stands on remembers what is skipped below it. -/
theorem Recalls.lowest (h : p.Recalls) {r : Reduction} {skipped : Bool} {lowest : Frame}
    {stack : Stack} (hl : Stands p r skipped lowest stack) :
    SkippedBelow p.pending lowest.base lowest.tail := by
  cases hl with
  | empty =>
    cases skipped with
    | true => exact h.trailing
    | false => exact skippedBelow_zero _ _
  | popped _ hf => exact h.frames _ (List.mem_of_getElem? hf)

theorem Recalls.serves (h : p.Recalls) (hb : Balanced t p) (r : Reduction) (skipped : Bool)
    (lowest : Frame) : p.builder.Serves (p.reduceEvent r skipped lowest) := by
  have hitems : p.items = p.pending.length := hb.items_eq
  have hsum := hoisted_add_children p r skipped lowest
  refine ⟨?_, fun n hn => ?_⟩
  · show _ ≤ p.pending.length
    omega
  · have hskipped : ∀ n ∈ p.pending.take p.skippedTail, n.skipped = true := by
      rw [← skippedBelow_length_iff, ← hitems]
      exact h.trailing
    exact hskipped n ((List.take_subset_take_left _ (hoisted_le p r skipped lowest)) hn)

/-- The node of a reduction comes behind the hoisted nodes and in front of those below the frame
that the reduction stands on. -/
theorem exists_below_of_reduced (hitems : p.items = p.pending.length) (r : Reduction)
    (skipped : Bool) {lowest : Frame} (stack : Stack) (hle : lowest.base ≤ p.items) :
    ∃ node below, node.skipped = skipped ∧ below <:+ p.pending ∧ below.length = lowest.base ∧
      ((p.withStack stack).reduced (p.reduceEvent r skipped lowest) lowest).pending =
        p.pending.take (p.reduceEvent r skipped lowest).hoisted ++ node :: below := by
  have hpending := p.builder.pending_add_reduce (p.reduceEvent r skipped lowest)
  rw [hoisted_add_children] at hpending
  refine ⟨_, p.pending.drop (p.items - lowest.base), rfl, List.drop_suffix _ _, ?_, hpending⟩
  rw [List.length_drop]
  omega

/-- A reduction changes no node below the frame that it stands on, and the node of a skipped one
comes right above those. -/
theorem Recalls.reduced (h : p.Recalls) (hb : Balanced t p) {r : Reduction} {skipped : Bool}
    {lowest : Frame} {stack : Stack} (hl : Stands p r skipped lowest stack)
    (hle : lowest.base ≤ p.items) (hd : Descends p.floor lowest.base stack.above)
    (hsub : stack.above ⊆ p.active.stack.above) :
    ((p.withStack stack).reduced (p.reduceEvent r skipped lowest) lowest).Recalls ∧
      SkippedBelow ((p.withStack stack).reduced (p.reduceEvent r skipped lowest) lowest).pending
        lowest.base lowest.tail := by
  have hitems : p.items = p.pending.length := hb.items_eq
  have hserves := h.serves hb r skipped lowest
  obtain ⟨node, below, hnode, hkept, hlength, hpending⟩ :=
    exists_below_of_reduced hitems r skipped stack hle
  generalize hq : (p.withStack stack).reduced (p.reduceEvent r skipped lowest) lowest = q
    at hpending ⊢
  have hkept' : below <:+ q.pending := by
    rw [hpending]
    exact (List.suffix_cons _ _).trans (List.suffix_append _ _)
  have hlowest : SkippedBelow q.pending lowest.base lowest.tail :=
    (h.lowest hl).of_suffix hkept hkept' (by omega)
  refine ⟨⟨?_, fun f hf => ?_, ?_⟩, hlowest⟩
  · have hfront : (p.pending.take (p.reduceEvent r skipped lowest).hoisted).length =
        (p.reduceEvent r skipped lowest).hoisted :=
      List.length_take_of_le (Nat.le_trans (Nat.le_add_left _ _) hserves.enough)
    have hcount : q.items = q.pending.length := by
      rw [hpending, List.length_append, List.length_cons, hfront, hlength, ← hq]
      show lowest.base + 1 + (p.reduceEvent r skipped lowest).hoisted = _
      omega
    have htail : q.skippedTail =
        if skipped then lowest.tail + 1 else (p.reduceEvent r skipped lowest).hoisted := by
      rw [← hq]
      rfl
    rw [hcount, skippedBelow_length_iff, htail, hpending]
    cases skipped with
    | false =>
      rw [if_neg (by simp), List.take_left' hfront]
      exact hserves.hoisted_skipped
    | true =>
      -- nothing is hoisted, and the node joins the skipped ones below it
      have hnone : (p.reduceEvent r true lowest).hoisted = 0 := rfl
      have hbelow : ∀ n ∈ below.take lowest.tail, n.skipped = true := hlowest below hkept' hlength
      simpa [hnone, hnode] using hbelow
  · have hf' : f ∈ stack.above := by
      rw [← hq] at hf
      exact hf
    have hbase := hd.base_le hf'
    exact (h.frames f (hsub hf')).of_suffix hkept hkept' (by omega)
  · rw [← hq]
    refine served_cons h.served fun e he => ?_
    obtain rfl := Event.reduce.inj he
    exact hserves

/-! ## Steps -/

theorem Reduces.recalls {r : Reduction} {skipped : Bool} {result : Result}
    (hr : Reduces token r skipped p result) (h : p.Recalls) (hb : Balanced t p)
    (hn : p.tables.Nestless) (hm : p.mount = 0)
    (hempty : skipped = false → r.depth = 0 → p.tables.Flat) : result.parse.Recalls := by
  cases hr with
  | underflow => exact h
  | uncounted => exact h
  | missing hl => exact ⟨h.trailing, fun f hf => h.frames f (hl.above_subset hf), h.served⟩
  | stays hl =>
    obtain ⟨hle, hd⟩ := hb.stands hm hempty hl
    exact (h.reduced hb hl hle hd hl.above_subset).1
  | goes hl _ _ _ lands =>
    obtain ⟨hle, hd⟩ := hb.stands hm hempty hl
    obtain ⟨hrecalls, hlowest⟩ := h.reduced hb hl hle hd hl.above_subset
    exact lands.recalls hn hrecalls hlowest

theorem Applies.recalls {term : Term} {a : Action} {r : Result}
    (happlies : Applies term token p a r) (h : p.Recalls) (hb : Balanced t p)
    (hn : p.tables.Nestless) (ho : p.tables.Orderly) (hm : p.mount = 0)
    (ha : p.tables.action p.state term = .ok (some a)) : r.parse.Recalls := by
  cases happlies with
  | unspanned => exact h
  | shift _ _ _ lands =>
    obtain ⟨hrecalls, hframe⟩ := h.consumed hb hm term _ _
    exact lands.recalls hn hrecalls hframe
  | push _ lands => exact lands.recalls hn h h.trailing
  | skip => exact (h.consumed hb hm term _ _).1
  | reduce hd reduces =>
    exact reduces.recalls h hb hn hm fun hs h0 =>
      ho.resolve_left fun hfree => hfree _ _ _ _ hd hs ha h0

/-- Whatever a step comes to, the predictions hold behind it. -/
theorem Outcome.recalls {r : Result} (hout : Outcome token p r) (h : p.Recalls)
    (hb : Balanced t p) (hn : p.tables.Nestless) (ho : p.tables.Orderly) (hm : p.mount = 0) :
    r.parse.Recalls := by
  cases hout with
  | finished => exact h
  | accepted =>
    show (if p.suspended.isEmpty then p.closed else p).Recalls
    split
    · exact ⟨h.trailing, h.frames, h.served⟩
    · exact h
  | resolved _ _ ha applies => exact applies.recalls h hb hn ho hm ha
  | mismatched => exact h
  | recovered _ _ _ _ ha applies =>
    exact applies.recalls (h.recovered _) (hb.recovered _) hn ho hm ha

/-! ## Runs -/

/-- The automaton and the consumer agree: the items are counted right, and every reduction so far
was told to take and to hoist what was there. -/
structure InStep (p : Parse) : Prop where
  items_eq : p.items = p.pending.length
  serves : ∀ earlier e later, p.events = earlier ++ .reduce e :: later →
    (earlier.foldl TreeBuilder.add .empty).Serves e

theorem Recalls.inStep (h : p.Recalls) (hb : Balanced t p) : p.InStep := by
  refine ⟨hb.items_eq, fun earlier e later heq => ?_⟩
  have hlog : p.log = later.reverse ++ .reduce e :: earlier.reverse := by
    have hrev := congrArg List.reverse heq
    simpa [events] using hrev
  have hserves := h.served _ _ _ hlog
  rwa [TreeBuilder.ofLog, List.foldr_reverse] at hserves

theorem Visited.recalls (hv : t.Valid) (hn : t.Nestless) (ho : t.Orderly) {x : Point}
    (h : Visited t o .inRange x) : Balanced t x.parse ∧ x.parse.Recalls := by
  refine Visited.kept (I := fun p => Balanced t p ∧ p.Recalls) hv hn
    ⟨balanced_new hv o, recalls_new t o⟩ ?_ h
  rintro p token r halone ⟨hb, hrecalls⟩ ⟨c, hc, rfl⟩ hout
  have htables := halone.sound.tables_eq hn
  have hstart : c.token.start < UInt64.size := Token.start_lt_of_stop? hc
  have hsettles := hout.settles hb hv (hn.layered ho) halone.mount_eq hstart
  exact ⟨hsettles.balanced,
    hout.recalls hrecalls hb (htables ▸ hn) (htables ▸ ho) halone.mount_eq⟩

/-- Over orderly tables of a single grammar, for a user who makes any calls with tokens that end
within 64 bits, also after errors: between the calls, and at every point inside a call, `items` is
the number of pending nodes, and every reduction that was reported took no more nodes than were
pending and hoisted skipped nodes only. -/
theorem items_eq_and_serves (hv : t.Valid) (hn : t.Nestless) (ho : t.Orderly) (o : Options) :
    (∀ {p}, Reachable t o .inRange p → p.InStep) ∧
      ∀ {x}, Visited t o .inRange x → x.parse.InStep := by
  have hpoint : ∀ {x}, Visited t o .inRange x → x.parse.InStep := fun h =>
    have hboth := h.recalls hv hn ho
    hboth.2.inStep hboth.1
  exact ⟨fun h => hpoint h.visited, hpoint⟩

/-! ## A comment behind a number -/

/-- A number, the term 3, and comments, which a 9 opens and a 13 closes around words 11. -/
def commented : Tables :=
  { start := 0, states := #[0, 0, 0, 1, 7, 3, 0, 14, 3, 2, 21, 3, 1, 22, 3]
    actions := #[9, 1, 0, 3, 2, 0, 0xffff, 11, 1, 4, 13, 4, 0, 0xffff, 9, 1, 0, 0, 7, 9, 0xffff,
      0xffff, 0, 15, 21, 3, 15, 21, 0xffff]
    gotos := #[7, 3, 0xffff, 0xffff], specializations := #[], nested := [], names := [] }

/-- A number with a comment behind it, in which a token does not fit. -/
def commentedCalls : List Call :=
  [.advance ⟨3, 0, 1⟩, .advance ⟨9, 1, 1⟩, .advance ⟨11, 2, 1⟩, .advance ⟨5, 3, 1⟩,
    .advance ⟨13, 3, 1⟩, .advance (Token.eof 4)]

/-- The comment is built in its skipped states, after an error there too, and hoisted out of the
number's reduction. -/
theorem items_eq_and_serves_commented :
    commented.Valid ∧ commented.Nestless ∧ commented.Orderly ∧ ∃ p earlier e,
      Reachable commented {} .inRange p ∧ p.events = earlier ++ [.reduce e] ∧
      e.children = 1 ∧ e.hoisted = 1 ∧ p.items = p.pending.length ∧
      (earlier.foldl TreeBuilder.add .empty).Serves e := by
  have hv : commented.Valid := .intro rfl (by simp [commented])
  have hn : commented.Nestless := Tables.nestless_of_isNestless rfl
  have ho : commented.Orderly := Tables.orderly_of_isOrderly rfl
  have hmakes : ∀ c ∈ commentedCalls, c.token.stop?.isSome = true := by decide
  have hp : Reachable commented {} .inRange (runCalls 3 commentedCalls (new commented {})) :=
    Reachable.new.runCalls trivial hmakes (by decide +kernel)
  have hevents : (runCalls 3 commentedCalls (new commented {})).events =
      (runCalls 3 commentedCalls (new commented {})).events.dropLast ++
        [.reduce ⟨7, ⟨0, 1⟩, 1, 1, 1, false, false⟩] := by decide +kernel
  obtain ⟨hitems, hserves⟩ := (items_eq_and_serves hv hn ho {}).1 hp
  exact ⟨hv, hn, ho, _, _, _, hp, hevents, rfl, rfl, hitems, hserves _ _ [] hevents⟩

end Parse

end LRMachine
