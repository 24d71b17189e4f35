import Mathlib.Data.List.Chain
import LRMachine.Proofs.SingleGrammar
import LRMachine.Proofs.TreeSpans

/-!
# The order of spans

On plain tables, and over tokens that come one behind the other, the consumer has its pending nodes
in order (`Parse.Laid`), because the frame of a node begins where the node does (`Parse.Starts`): a
reduction spans what it takes, and neither reaches below it nor into what is hoisted out of it. So
the tree that comes of any run, also of one that fails, is well spanned (`wellSpanned_of_parse`).
-/

namespace LRMachine

/-! ## Frames and their nodes -/

/-- The node of a frame stands at the frame's place, which counts the older nodes, and begins where
the frame does. -/
def StartsIn (nodes : List Node) (f : Frame) : Prop :=
  ∃ node, nodes.reverse[f.base]? = some node ∧ node.span.start = f.start

theorem StartsIn.base_lt {nodes : List Node} {f : Frame} (h : StartsIn nodes f) :
    f.base < nodes.length := by
  obtain ⟨node, hnode, -⟩ := h
  simpa using (List.getElem?_eq_some_iff.mp hnode).1

theorem startsIn_append_iff {newer below : List Node} {node : Node} {f : Frame}
    (hbase : f.base = below.length) :
    StartsIn (newer ++ node :: below) f ↔ node.span.start = f.start := by
  have hnode : (newer ++ node :: below).reverse[f.base]? = some node := by
    rw [hbase, List.reverse_append, List.reverse_cons, List.append_assoc, List.singleton_append,
      List.getElem?_append_right (by simp)]
    simp
  rw [StartsIn, hnode]
  simp

theorem StartsIn.of_suffix {nodes nodes' kept : List Node} {f : Frame} (h : StartsIn nodes f)
    (hkept : kept <:+ nodes) (hkept' : kept <:+ nodes') (hlt : f.base < kept.length) :
    StartsIn nodes' f := by
  obtain ⟨newer, rfl⟩ := hkept
  obtain ⟨newer', rfl⟩ := hkept'
  have hlt : f.base < kept.reverse.length := by rwa [List.length_reverse]
  rw [StartsIn, List.reverse_append, List.getElem?_append_left hlt] at h ⊢
  exact h

namespace Parse

variable {t : Tables} {o : Options} {token : Token} {p q : Parse}

/-! ## Steps -/

/-- The consumer of the events has the pending nodes in order. -/
def Laid (p : Parse) : Prop := p.builder.Laid p.contentEnd p.position

/-- The node of every frame stands at the frame's place among the pending nodes and begins where the
frame does. -/
def Starts (p : Parse) : Prop := ∀ f ∈ p.active.stack.above, StartsIn p.pending f

theorem Lands.laid {f : Frame} {start : Nat} {made : Step} {r : Result}
    (l : Lands p f start made r) (hp : p.tables.Plain) (h : p.Laid) : r.parse.Laid := by
  rcases l.of_nestless hp.nestless with ⟨-, rfl⟩ | ⟨-, rfl⟩
  · exact h
  · exact h

theorem Laid.consumed (h : p.Laid) (hm : p.mount = 0) (term : Term) {span : Span} (skipped : Bool)
    (hs : token.span? = some span) (hle : p.position ≤ token.start) :
    (p.consumed term span skipped).Laid ∧ (p.consumed term span skipped).position = span.stop := by
  obtain ⟨hstart, hstop⟩ := Token.span?_eq_some_iff.mp hs
  obtain ⟨hlength, -⟩ := Token.stop?_eq_some_iff.mp hstop
  have hposition : max p.position span.stop = span.stop := by omega
  have hadd := h.add_shift (e := ⟨term, span, 0, skipped⟩) rfl
    (show p.position ≤ span.start by omega) (show span.start ≤ span.stop by omega)
  refine ⟨?_, hposition⟩
  show (p.consumed term span skipped).builder.Laid
    (if skipped then p.contentEnd else max p.position span.stop) (max p.position span.stop)
  rw [builder_consumed hm, hposition]
  exact hadd

theorem Starts.shifted (h : p.Starts) (hm : p.mount = 0) (hitems : p.items = p.pending.length)
    (term : Term) {span : Span} (hs : token.span? = some span) (target : StateId) :
    ((p.consumed term span false).raised
      ⟨target, token.start, p.shiftBase, p.shiftTail⟩).Starts := by
  have hpending := pending_consumed_unmounted hm term span false
  intro f hf
  show StartsIn (p.consumed term span false).pending f
  rw [hpending]
  rcases List.mem_cons.mp hf with rfl | hf
  · have hbase : p.shiftBase = p.pending.length := by rw [shiftBase, hm, hitems, Nat.sub_zero]
    show StartsIn ([] ++ p.builder.shiftNode ⟨term, span, 0, false⟩ :: p.pending) _
    exact (startsIn_append_iff hbase).mpr (Token.span?_eq_some_iff.mp hs).1.symm
  · have hstarts := h f hf
    exact hstarts.of_suffix List.suffix_rfl (List.suffix_cons _ _) hstarts.base_lt

theorem Starts.skipped (h : p.Starts) (hm : p.mount = 0) (term : Term) (span : Span) :
    (p.consumed term span true).Starts := by
  have hpending := pending_consumed_unmounted hm term span true
  intro f hf
  rw [hpending]
  have hstarts := h f hf
  exact hstarts.of_suffix List.suffix_rfl (List.suffix_cons _ _) hstarts.base_lt

/-- Where a reduction stands, the frame begins with the oldest node that is taken, or at the end of
the content. -/
theorem Starts.stands (h : p.Starts) {r : Reduction} {lowest : Frame} {stack : Stack}
    (hl : Stands p r false lowest stack) {trailing taken below : List Node}
    (htakes : TakesPopped p.active.stack.above p.builder (p.reduceEvent r false lowest)
      trailing taken below) (hbase : lowest.base = below.length) :
    (∀ n ∈ taken.getLast?, n.span.start = lowest.start) ∧
      (taken = [] → lowest.start = p.contentEnd) := by
  cases hl with
  | empty hd =>
    obtain rfl := htakes.taken_of_empty (congrArg UInt16.toNat hd)
    exact ⟨by simp, fun _ => rfl⟩
  | @popped n _ hd hf =>
    refine ⟨fun node hnode => ?_, fun hnone => ?_⟩
    · obtain ⟨newer, rfl⟩ := List.getLast?_eq_some_iff.mp hnode
      have hpending : p.pending = (trailing ++ newer) ++ node :: below := by
        have hsplit : p.pending = _ := htakes.pending_eq
        simp [hsplit]
      have hstarts := h lowest (List.mem_of_getElem? hf)
      rw [hpending] at hstarts
      exact (startsIn_append_iff hbase).mp hstarts
    · -- the places of the popped frames are those of taken nodes
      have hplaces := congrArg List.length htakes.places
      have hbelow := congrArg List.length htakes.places_below
      have hdepth : (p.reduceEvent r false lowest).depth = n + 1 := hd
      have hle := htakes.depth_le
      rw [hnone, List.nil_append, hbelow] at hplaces
      simp only [List.length_map, List.length_drop] at hplaces
      omega

theorem Laid.reduced (h : p.Laid) (hc : p.Counted) (hs : p.Starts) {r : Reduction} {lowest : Frame}
    {stack : Stack} (hl : Stands p r false lowest stack) :
    ((p.withStack stack).reduced (p.reduceEvent r false lowest) lowest).Laid := by
  obtain ⟨-, trailing, taken, below, htakes, htrailing, hbase, -⟩ := hc.takesPopped hl
  obtain ⟨hstart, hempty⟩ := hs.stands hl htakes hbase
  exact h.add_reduce htakes htrailing rfl hstart hempty rfl

theorem Starts.reduced (h : p.Starts) (hc : p.Counted) {r : Reduction} {lowest : Frame}
    {stack : Stack} (hl : Stands p r false lowest stack) (target : StateId) :
    (((p.withStack stack).reduced (p.reduceEvent r false lowest) lowest).raised
      ⟨target, lowest.start, lowest.base, lowest.tail⟩).Starts := by
  obtain ⟨habove, trailing, taken, below, htakes, -, hbase, -⟩ := hc.takesPopped hl
  intro f hf
  show StartsIn (p.builder.add (.reduce _)).pending f
  rw [htakes.pending_after]
  rcases List.mem_cons.mp hf with rfl | hf
  · exact (startsIn_append_iff hbase).mpr rfl
  · have hf : f ∈ p.active.stack.above.drop r.depth.toNat := habove ▸ hf
    have hplace : f.base ∈ contentPlaces below := by
      rw [htakes.places_below]
      exact List.mem_map_of_mem hf
    have hpending : p.pending = (trailing ++ taken) ++ below := by
      have hsplit : p.pending = _ := htakes.pending_eq
      simp [hsplit]
    have hlt := lt_of_mem_contentPlaces hplace
    refine StartsIn.of_suffix (h f (List.mem_of_mem_drop hf)) ?_ ?_ hlt
    · rw [hpending]
      exact List.suffix_append _ _
    · exact (List.suffix_cons _ _).trans (List.suffix_append _ _)

/-- The counters, the frames and the spans of a plain parse without an error. -/
structure Spanned (p : Parse) : Prop where
  counted : p.Counted
  starts : p.Starts
  laid : p.Laid

theorem spanned_new (t : Tables) (o : Options) : (new t o).Spanned :=
  ⟨counted_new t o, fun _ hf => by simp [new, Level.new, Stack.new] at hf, TreeBuilder.laid_empty⟩

theorem Spanned.recovered (h : p.Spanned) (d : Diagnostic) : (p.recovered d).Spanned :=
  ⟨h.counted.recovered d, h.starts, h.laid.add_diagnostic d⟩

section Plain

variable (hp : p.tables.Plain)

include hp

/-- Whatever an action comes to, the nodes lie in order behind it. -/
theorem Applies.laid {term : Term} {a : Action} {r : Result} (happlies : Applies term token p a r)
    (h : p.Spanned) (ha : p.tables.action p.state term = .ok (some a))
    (hle : p.position ≤ token.start) : r.parse.Laid := by
  have hm := h.counted.unmounted
  cases happlies with
  | unspanned => exact h.laid
  | shift _ _ hs lands => exact lands.laid hp (h.laid.consumed hm term _ hs hle).1
  | push => exact absurd ha (hp.pushless _ _ _)
  | skip hs => exact (h.laid.consumed hm term true hs hle).1
  | reduce hd reduces =>
    rw [hp.skipless _ _ hd] at reduces
    cases reduces with
    | stays hl => exact h.laid.reduced h.counted h.starts hl
    | goes hl _ _ _ lands => exact lands.laid hp (h.laid.reduced h.counted h.starts hl)
    | _ => exact h.laid

theorem Outcome.laid {r : Result} (hout : Outcome token p r) (h : p.Spanned)
    (hle : p.position ≤ token.start) : r.parse.Laid := by
  cases hout with
  | accepted =>
    show (if p.suspended.isEmpty then p.closed else p).Laid
    split <;> exact h.laid
  | resolved _ _ ha applies => exact applies.laid hp h ha hle
  | recovered _ _ _ _ ha applies =>
    exact applies.laid (p := p.recovered _) hp (h.recovered _) ha hle
  | _ => exact h.laid

theorem Applies.starts {term : Term} {a : Action} {made : Step}
    (happlies : Applies term token p a (.ok made q)) (h : p.Spanned)
    (ha : p.tables.action p.state term = .ok (some a)) (hle : p.position ≤ token.start) :
    q.Starts ∧ q.position = if made.consumed then token.start + token.length else p.position := by
  have hm := h.counted.unmounted
  have hposition : ∀ {span} (skipped : Bool), token.span? = some span →
      (p.consumed term span skipped).position = token.start + token.length := by
    intro span skipped hs
    rw [(h.laid.consumed hm term skipped hs hle).2]
    exact (Token.stop?_eq_some_iff.mp (Token.span?_eq_some_iff.mp hs).2).1.symm
  cases happlies with
  | shift _ hd hs lands =>
    rw [hp.skipless _ _ hd] at lands
    rw [lands.made_eq, lands.eq_raised hp.nestless]
    exact ⟨h.starts.shifted hm h.counted.items_eq term hs _, hposition false hs⟩
  | push => exact absurd ha (hp.pushless _ _ _)
  | skip hs => exact ⟨h.starts.skipped hm term _, hposition true hs⟩
  | reduce hd reduces =>
    rw [hp.skipless _ _ hd] at reduces
    cases reduces with
    | stays _ hstay =>
      rw [hp.stayless _ _ _ ha] at hstay
      cases hstay
    | goes hl _ _ _ lands =>
      rw [lands.made_eq, lands.eq_raised hp.nestless]
      exact ⟨h.starts.reduced h.counted hl _, rfl⟩

/-- A step that succeeds keeps everything, and passes its token or stays where it is. -/
theorem Outcome.spanned {made : Step} (hout : Outcome token p (.ok made q)) (h : p.Spanned)
    (hle : p.position ≤ token.start) :
    q.Spanned ∧ q.position = if made.consumed then token.start + token.length else p.position := by
  have hcounted := h.counted.of_outcome hp hout
  have hlaid : q.Laid := hout.laid hp h hle
  have hstarts : q.Starts ∧
      q.position = if made.consumed then token.start + token.length else p.position := by
    cases hout with
    | accepted =>
      split
      · exact ⟨h.starts, rfl⟩
      · exact ⟨h.starts, rfl⟩
    | resolved _ _ ha applies => exact applies.starts hp h ha hle
    | recovered _ _ _ _ ha applies =>
      exact applies.starts (p := p.recovered _) hp (h.recovered _) ha hle
  exact ⟨⟨hcounted, hstarts.1, hlaid⟩, hstarts.2⟩

end Plain

/-! ## Runs -/

/-- The tokens come one behind the other and end within 64 bits; an end of input has no length. -/
structure Spaced (tokens : List Token) : Prop where
  chain : tokens.IsChain fun a b => a.start + a.length ≤ b.start
  inRange : ∀ token ∈ tokens, token.stop?.isSome = true
  eof_length : ∀ token ∈ tokens, token.term = Term.eof → token.length = 0

theorem Spaced.tail {token : Token} {rest : List Token} (h : Spaced (token :: rest)) :
    Spaced rest ∧ ∀ next ∈ rest.head?, token.start + token.length ≤ next.start := by
  refine ⟨⟨h.chain.of_cons, fun b hb => h.inRange b (List.mem_cons_of_mem _ hb),
    fun b hb => h.eof_length b (List.mem_cons_of_mem _ hb)⟩, fun next hnext => ?_⟩
  obtain ⟨later, rfl⟩ := List.head?_eq_some_iff.mp hnext
  exact h.chain.rel

/-- The parse has everything in order and is in front of the token. -/
structure Facing (t : Tables) (token : Token) (p : Parse) : Prop where
  alone : Alone t p
  spanned : p.Spanned
  position_le : p.position ≤ token.start

theorem Facing.step (h : Facing t token p) (hv : t.Valid) (hp : t.Plain) {r : Result}
    (hr : Parse.step token p = r) :
    r.parse.Laid ∧ Alone t r.parse ∧ ∀ made q, r = .ok made q → q.Spanned ∧
      q.position = if made.consumed then token.start + token.length else p.position := by
  have hplain : p.tables.Plain := h.alone.sound.tables_eq hp.nestless ▸ hp
  obtain ⟨hout, hafter⟩ := h.alone.step hv hr
  refine ⟨hout.laid hplain h.spanned h.position_le, hafter, ?_⟩
  rintro made q rfl
  exact hout.spanned hplain h.spanned h.position_le

/-- A token that is consumed and still fed is the end of input, which has no length. -/
theorem Facing.unsettled (h : Facing t token p) (hv : t.Valid) (hp : t.Plain)
    (hlength : token.term = Term.eof → token.length = 0) {made : Step}
    (hstep : Parse.step token p = .ok made q) (hgoes : settles token made = false) :
    Facing t token q := by
  obtain ⟨-, hafter, hok⟩ := h.step hv hp hstep
  obtain ⟨hq, hposition⟩ := hok made q rfl
  refine ⟨hafter, hq, ?_⟩
  rw [hposition]
  split
  · have hboth : made ≠ .accepted ∧ token.term = Term.eof := by simpa [settles, *] using hgoes
    rw [hlength hboth.2, Nat.add_zero]
  · exact h.position_le

theorem Facing.advance (h : Facing t token p) (hv : t.Valid) (hp : t.Plain)
    (hlength : token.term = Term.eof → token.length = 0) (fuel : Nat) :
    match advance fuel token p with
      | .ok _ q => Alone t q ∧ q.Spanned ∧ q.position ≤ token.start + token.length
      | .error _ q => q.Laid := by
  have hends := advance_ends (fun hI => hI.alone.sound.suspended_eq hp.nestless)
    (fun hI => hI.unsettled hv hp hlength) fuel h
  split
  · rename_i made q heq
    rw [heq] at hends
    obtain ⟨-, x, hx, hstep⟩ := hends
    obtain ⟨-, hafter, hok⟩ := hx.step hv hp hstep
    obtain ⟨hq, hposition⟩ := hok made q rfl
    have hle := hx.position_le
    refine ⟨hafter, hq, ?_⟩
    rw [hposition]
    split <;> omega
  · rename_i halt q heq
    rw [heq] at hends
    rcases hends with ⟨x, hx, hstep⟩ | ⟨hx, -⟩
    · exact (hx.step hv hp hstep).1
    · exact hx.spanned.laid

theorem Spanned.feed (hv : t.Valid) (hp : t.Plain) {fuel : Nat} :
    ∀ {tokens : List Token} {stop : Nat} {p : Parse}, Alone t p → p.Spanned → Spaced tokens →
      p.position ≤ stop → (∀ first ∈ tokens.head?, stop ≤ first.start) →
      (final (feed fuel tokens stop p)).Laid := by
  intro tokens
  induction tokens with
  | nil =>
    intro stop p halone h _ hle _
    have hfacing : Facing t (Token.eof stop) p := ⟨halone, h, hle⟩
    have hadvance := hfacing.advance hv hp (fun _ => rfl) fuel
    simp only [Parse.feed, run_bind]
    cases hr : Parse.advance fuel (Token.eof stop) p with
    | error halt q =>
      rw [hr] at hadvance
      exact hadvance
    | ok made q =>
      rw [hr] at hadvance
      exact hadvance.2.1.laid
  | cons token rest ih =>
    intro stop p halone h hspaced hle hfirst
    obtain ⟨hrest, hnext⟩ := hspaced.tail
    obtain ⟨stop', hstop⟩ := Option.isSome_iff_exists.mp (hspaced.inRange token List.mem_cons_self)
    obtain ⟨hlength, -⟩ := Token.stop?_eq_some_iff.mp hstop
    have hfacing : Facing t token p := ⟨halone, h, Nat.le_trans hle (hfirst token rfl)⟩
    have hadvance := hfacing.advance hv hp (hspaced.eof_length token List.mem_cons_self) fuel
    rw [Parse.feed, hstop]
    simp only [run_bind]
    cases hr : Parse.advance fuel token p with
    | error halt q =>
      rw [hr] at hadvance
      exact hadvance
    | ok made q =>
      rw [hr] at hadvance
      obtain ⟨hq, hspanned, hposition⟩ := hadvance
      dsimp only
      split
      · exact hspanned.laid
      · exact ih hq hspanned hrest (by omega) fun next hmem => by
          have := hnext next hmem
          omega

/-- Over plain tables and tokens that come one behind the other, the tree of the events is well
spanned, whatever the run comes to: the roots lie in order, and so do the children of every node,
within the node; and every reduced node ends where the last token before it that is not skipped
ends. -/
theorem wellSpanned_of_parse (hv : t.Valid) (hp : t.Plain) (o : Options) {tokens : List Token}
    (h : Spaced tokens) (fuel : Nat) :
    (Tree.ofEvents (final (parse fuel t tokens o)).events).WellSpanned := by
  have hlaid : (final (parse fuel t tokens o)).Laid :=
    (spanned_new t o).feed hv hp (alone_new hv o) h (Nat.le_refl _) (fun _ _ => Nat.zero_le _)
  generalize final (parse fuel t tokens o) = q at hlaid
  have hlaid : q.builder.Laid q.contentEnd q.position := hlaid
  rw [← finish_builder]
  have hall : ∀ {P : Node → Prop}, q.builder.All P → ∀ n, q.builder.finish.Reaches n → n.All P :=
    fun hall n hn => hn.all fun m hm => hall m (List.mem_reverse.mp hm)
  refine ⟨List.pairwise_reverse.mpr hlaid.order, fun n hn => (hall hlaid.encloses n hn).here,
    hlaid.reduced, fun n hn => (hall (TreeBuilder.all_keeps_ofLog q.log) n hn).here⟩

/-- The spans nest in the tree of a sum that breaks off at a second plus: the reduced number, the
blank and the first plus are its roots. -/
theorem wellSpanned_of_parse_second_plus :
    Grammar.sum.Valid ∧ Grammar.sum.Plain ∧
      Spaced [⟨3, 0, 1⟩, ⟨8, 1, 1⟩, ⟨5, 3, 1⟩, ⟨5, 4, 1⟩] ∧ ∃ tree : Tree,
      tree = Tree.ofEvents (final (parse 9 Grammar.sum
        [⟨3, 0, 1⟩, ⟨8, 1, 1⟩, ⟨5, 3, 1⟩, ⟨5, 4, 1⟩] {})).events ∧
      tree.roots.map Node.span = [⟨0, 1⟩, ⟨1, 2⟩, ⟨3, 4⟩] ∧ tree.WellSpanned := by
  have hv := Grammar.sum_obtained.valid
  have hspaced : Spaced [⟨3, 0, 1⟩, ⟨8, 1, 1⟩, ⟨5, 3, 1⟩, ⟨5, 4, 1⟩] :=
    ⟨by decide, by decide, by decide⟩
  exact ⟨hv, Grammar.sum_plain, hspaced, _, rfl, by decide +kernel,
    wellSpanned_of_parse hv Grammar.sum_plain {} hspaced 9⟩

end Parse

end LRMachine
