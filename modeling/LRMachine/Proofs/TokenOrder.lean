import Mathlib.Data.List.Forall2
import LRMachine.Proofs.Pending
import LRMachine.Proofs.Readings
import LRMachine.Proofs.SingleGrammar
import LRMachine.Tree.Text

/-!
# The tokens of a tree

A consumer that takes, hoists and flattens nodes never touches the order of the tokens in them,
whatever counts a reduction gives (`TreeBuilder.tokens_add_reduce`). So the tokens of a tree are
those that were consumed, in the order of their consumption. In a run of a single grammar that
accepts, these are the tokens in front of the end of input, each once, and behind them only what was
consumed for the end of input itself (`Parse.tokens_of_parse`).
-/

namespace LRMachine

namespace Node

mutual

/-- The tokens of a tree from left to right, a token in front of what it adopted. -/
def tokens : Node → List Node
  | ⟨id, term, span, children, isToken, skipped, repeats⟩ =>
    if isToken then ⟨id, term, span, children, isToken, skipped, repeats⟩ :: forestTokens children
    else forestTokens children

/-- The tokens of a forest. -/
def forestTokens : List Node → List Node
  | [] => []
  | node :: rest => node.tokens ++ forestTokens rest

end

theorem tokens_of_isToken {node : Node} (h : node.isToken = true) :
    node.tokens = node :: forestTokens node.children := by
  cases node
  exact if_pos h

theorem tokens_of_not_isToken {node : Node} (h : node.isToken = false) :
    node.tokens = forestTokens node.children := by
  cases node
  cases h
  rfl

theorem forestTokens_append (a b : List Node) :
    forestTokens (a ++ b) = forestTokens a ++ forestTokens b := by
  induction a with
  | nil => rfl
  | cons node rest ih => simp only [List.cons_append, forestTokens, ih, List.append_assoc]

theorem forestTokens_singleton (node : Node) : forestTokens [node] = node.tokens := by
  rw [forestTokens, forestTokens, List.append_nil]

mutual

theorem leaves_eq_filter : ∀ node : Node,
    node.leaves = (node.tokens.filter (·.children.isEmpty)).map Node.term
  | ⟨_, _, _, children, isToken, _, _⟩ => by
    have hchildren := forestLeaves_eq_filter children
    cases isToken with
    | false => exact hchildren
    | true =>
      cases children with
      | nil => rfl
      | cons => exact hchildren

theorem forestLeaves_eq_filter : ∀ nodes : List Node,
    forestLeaves nodes = ((forestTokens nodes).filter (·.children.isEmpty)).map Node.term
  | [] => rfl
  | node :: rest => by
    rw [forestLeaves, forestTokens, leaves_eq_filter node, forestLeaves_eq_filter rest,
      List.filter_append, List.map_append]

end

theorem forestLeaves_eq (nodes : List Node) (h : ∀ n ∈ forestTokens nodes, n.children = []) :
    forestLeaves nodes = (forestTokens nodes).map Node.term := by
  rw [forestLeaves_eq_filter, List.filter_eq_self.mpr fun n hn => by rw [h n hn]; rfl]

end Node

/-- The tokens of a tree, from left to right. -/
def Tree.tokens (t : Tree) : List Node := Node.forestTokens t.roots

/-! ## The tokens in the making -/

namespace TreeBuilder

/-- The tokens so far, from left to right. -/
def tokens (b : TreeBuilder) : List Node := Node.forestTokens b.pending.reverse

/-- No token that is pending passes for a repetition. -/
def TokensStay (b : TreeBuilder) : Prop := ∀ n ∈ b.pending, n.repeats = true → n.isToken = false

/-- Repetitions that dissolve leave their tokens in place. -/
theorem forestTokens_flatten (term : Term) :
    ∀ nodes : List Node, (∀ n ∈ nodes, n.repeats = true → n.isToken = false) →
      Node.forestTokens (flatten term nodes) = Node.forestTokens nodes := by
  intro nodes
  induction nodes with
  | nil => intro _; rfl
  | cons node rest ih =>
    intro h
    have hnode : Node.forestTokens (if dissolves term node then node.children else [node]) =
        node.tokens := by
      by_cases hd : dissolves term node = true
      · have hrepeats := ((Bool.and_eq_true _ _).mp hd).1
        rw [if_pos hd, Node.tokens_of_not_isToken (h node List.mem_cons_self hrepeats)]
      · rw [if_neg hd, Node.forestTokens_singleton]
    have hrest := ih fun n hn => h n (List.mem_cons_of_mem _ hn)
    calc Node.forestTokens (flatten term (node :: rest))
        = Node.forestTokens (if dissolves term node then node.children else [node]) ++
            Node.forestTokens (flatten term rest) := Node.forestTokens_append _ _
      _ = node.tokens ++ Node.forestTokens rest := by rw [hnode, hrest]

variable {b : TreeBuilder}

/-- A reduction keeps the tokens and their order, whatever it is told to take and to hoist. -/
theorem tokens_add_reduce (h : b.TokensStay) (e : ReduceEvent) :
    (b.add (.reduce e)).tokens = b.tokens ∧ (b.add (.reduce e)).TokensStay := by
  have hpending := b.pending_add_reduce e
  have hstay : ∀ n ∈ b.taken e.children e.hoisted, n.repeats = true → n.isToken = false :=
    fun n hn => h n (mem_pending_of_mem_taken hn)
  have hnode : (b.reduceNode e).tokens = Node.forestTokens (b.taken e.children e.hoisted) := by
    rw [Node.tokens_of_not_isToken rfl]
    exact forestTokens_flatten e.term _ hstay
  have hsplit : b.pending.reverse = (b.pending.drop (e.hoisted + e.children)).reverse ++
      b.taken e.children e.hoisted ++ (b.pending.take e.hoisted).reverse := by
    rw [taken, ← List.reverse_append, ← List.drop_drop, List.take_append_drop,
      ← List.reverse_append, List.take_append_drop]
  refine ⟨?_, fun n hn => ?_⟩
  · simp only [tokens, hsplit, hpending, List.reverse_append, List.reverse_cons,
      Node.forestTokens_append, Node.forestTokens_singleton, hnode]
  · rw [hpending] at hn
    rcases List.mem_append.mp hn with hn | hn
    · exact h n (List.mem_of_mem_take hn)
    · rcases List.mem_cons.mp hn with rfl | hn
      · exact fun _ => rfl
      · exact h n (List.mem_of_mem_drop hn)

/-- A shifted token stands in front of those that it adopts, behind the others. -/
theorem tokens_shift (b : TreeBuilder) (e : ShiftEvent) :
    b.tokens = Node.forestTokens (b.pending.drop e.children).reverse ++
        Node.forestTokens (b.taken e.children 0) ∧
      (b.add (.shift e)).tokens = Node.forestTokens (b.pending.drop e.children).reverse ++
        b.shiftNode e :: Node.forestTokens (b.taken e.children 0) := by
  constructor
  · rw [tokens, ← Node.forestTokens_append, taken, List.drop_zero, ← List.reverse_append,
      List.take_append_drop]
  · rw [tokens, pending_add_shift, List.reverse_cons, Node.forestTokens_append,
      Node.forestTokens_singleton, Node.tokens_of_isToken rfl]
    rfl

theorem TokensStay.add_shift (h : b.TokensStay) (e : ShiftEvent) :
    (b.add (.shift e)).TokensStay := by
  intro n hn
  rw [pending_add_shift] at hn
  rcases List.mem_cons.mp hn with rfl | hn
  · intro hrepeats
    cases hrepeats
  · exact h n (List.mem_of_mem_drop hn)

theorem tokens_add_shift (h : b.TokensStay) {e : ShiftEvent} (he : e.children = 0) :
    (b.add (.shift e)).tokens = b.tokens ++ [b.shiftNode e] ∧ (b.add (.shift e)).TokensStay ∧
      (b.shiftNode e).children = [] := by
  have hnone : b.taken e.children 0 = [] := by
    rw [he, taken, List.take_zero, List.reverse_nil]
  obtain ⟨hbefore, hafter⟩ := b.tokens_shift e
  rw [hnone] at hbefore hafter
  refine ⟨?_, h.add_shift e, hnone⟩
  rw [hafter, hbefore, Node.forestTokens, List.append_nil]

end TreeBuilder

namespace Parse

variable {t : Tables} {o : Options} {token : Token} {p q : Parse} {nodes : List Node}

/-! ## Steps -/

/-- The node is the token as the grammar can read it. -/
structure Carries (t : Tables) (token : Token) (node : Node) : Prop where
  span_eq : token.span? = some node.span
  reads : t.Reads token.term node.term

/-- What holds of the pending tokens in every parse of a single grammar. -/
structure Strung (p : Parse) : Prop where
  stay : p.builder.TokensStay
  childless : ∀ n ∈ p.builder.tokens, n.children = []

theorem strung_new (t : Tables) (o : Options) : (new t o).Strung where
  stay n hn := by cases hn
  childless n hn := by cases hn

/-- The parse `q` has the tokens of `p` and behind them the given ones, all of the token. -/
structure Extends (t : Tables) (token : Token) (p q : Parse) (nodes : List Node) : Prop where
  strung : q.Strung
  tokens_eq : q.builder.tokens = p.builder.tokens ++ nodes
  carries : ∀ n ∈ nodes, Carries t token n

theorem Strung.extends_self (h : p.Strung) : Extends t token p p [] :=
  ⟨h, (List.append_nil _).symm, by simp⟩

theorem Extends.of_log_eq {q' : Parse} (h : Extends t token p q nodes) (hlog : q'.log = q.log) :
    Extends t token p q' nodes := by
  have hbuilder : q'.builder = q.builder := by rw [builder, builder, hlog]
  exact ⟨⟨hbuilder ▸ h.strung.stay, hbuilder ▸ h.strung.childless⟩, hbuilder ▸ h.tokens_eq,
    h.carries⟩

theorem Strung.consumed (h : p.Strung) (hm : p.mount = 0) {term : Term} {span : Span}
    (skipped : Bool) (hs : token.span? = some span) (hreads : t.Reads token.term term) :
    ∃ node, Extends t token p (p.consumed term span skipped) [node] := by
  obtain ⟨htokens, hstay, hnone⟩ :=
    TreeBuilder.tokens_add_shift h.stay (e := ⟨term, span, 0, skipped⟩) rfl
  rw [← builder_consumed hm] at htokens hstay
  refine ⟨_, ⟨hstay, ?_⟩, htokens, ?_⟩
  · intro n hn
    rw [htokens] at hn
    rcases List.mem_append.mp hn with hn | hn
    · exact h.childless n hn
    · rw [List.mem_singleton.mp hn]
      exact hnone
  · intro n hn
    rw [List.mem_singleton.mp hn]
    exact ⟨hs, hreads⟩

theorem Strung.reduced (h : p.Strung) (stack : Stack) (e : ReduceEvent) (lowest : Frame) :
    Extends t token p ((p.withStack stack).reduced e lowest) [] := by
  obtain ⟨htokens, hstay⟩ := TreeBuilder.tokens_add_reduce h.stay e
  refine ⟨⟨hstay, fun n hn => h.childless n ?_⟩, ?_, by simp⟩
  · rwa [← htokens]
  · rw [List.append_nil]
    exact htokens

theorem Applies.extends {term : Term} {a : Action} {made : Step}
    (h : Applies term token p a (.ok made q)) (hstrung : p.Strung) (hm : p.mount = 0)
    (hreads : t.Reads token.term term) :
    ∃ nodes, Extends t token p q nodes ∧ nodes.length = if made.consumed then 1 else 0 := by
  cases h with
  | shift _ _ hs lands =>
    obtain ⟨node, hextends⟩ := hstrung.consumed hm _ hs hreads
    rw [lands.made_eq]
    exact ⟨_, hextends.of_log_eq lands.log_eq, rfl⟩
  | push _ lands =>
    rw [lands.made_eq]
    exact ⟨_, hstrung.extends_self.of_log_eq lands.log_eq, rfl⟩
  | skip hs =>
    obtain ⟨node, hextends⟩ := hstrung.consumed hm true hs hreads
    exact ⟨_, hextends, rfl⟩
  | reduce _ reduces =>
    cases reduces with
    | stays => exact ⟨_, hstrung.reduced _ _ _, rfl⟩
    | goes _ _ _ _ lands =>
      rw [lands.made_eq]
      exact ⟨_, (hstrung.reduced _ _ _).of_log_eq lands.log_eq, rfl⟩

/-- A step that passes its token adds it behind the tokens so far; any other step adds none. -/
theorem Outcome.extends {made : Step} (h : Outcome token p (.ok made q)) (hstrung : p.Strung)
    (hm : p.mount = 0) (htables : p.tables = t) :
    ∃ nodes, Extends t token p q nodes ∧ nodes.length = if made.consumed then 1 else 0 := by
  cases h with
  | accepted =>
    refine ⟨[], hstrung.extends_self.of_log_eq ?_, rfl⟩
    split <;> rfl
  | resolved _ hr _ applies =>
    exact applies.extends hstrung hm (Storage.reads_of_resolve (htables ▸ hr))
  | recovered _ _ _ _ _ applies =>
    obtain ⟨nodes, hextends, hlength⟩ :=
      applies.extends (p := p.recovered _) (t := t) ⟨hstrung.stay, hstrung.childless⟩ hm
        (.inr (.inr rfl))
    exact ⟨nodes, ⟨hextends.strung, hextends.tokens_eq, hextends.carries⟩, hlength⟩

/-! ## Runs -/

theorem Extends.trans {q' : Parse} {nodes' : List Node} (h : Extends t token p q nodes)
    (h' : Extends t token q q' nodes') : Extends t token p q' (nodes ++ nodes') where
  strung := h'.strung
  tokens_eq := by rw [h'.tokens_eq, h.tokens_eq, List.append_assoc]
  carries n hn := (List.mem_append.mp hn).elim (h.carries n) (h'.carries n)

theorem Alone.extends_step (halone : Alone t p) (hv : t.Valid) (hn : t.Nestless)
    (hstrung : p.Strung) {made : Step} (h : Parse.step token p = .ok made q) :
    Outcome token p (.ok made q) ∧ Alone t q ∧
      ∃ nodes, Extends t token p q nodes ∧ nodes.length = if made.consumed then 1 else 0 := by
  obtain ⟨hout, hafter⟩ := halone.step hv h
  exact ⟨hout, hafter, hout.extends hstrung halone.mount_eq (halone.sound.tables_eq hn)⟩

/-- Between the steps with a token that goes on from `p`: only the end of input can have been
consumed already. -/
structure Underway (t : Tables) (token : Token) (p x : Parse) : Prop where
  alone : Alone t x
  added : ∃ nodes, Extends t token p x nodes ∧ (token.term ≠ Term.eof → nodes = [])

theorem Underway.step (hv : t.Valid) (hn : t.Nestless) {x y : Parse} {made : Step}
    (h : Underway t token p x) (hstep : Parse.step token x = .ok made y)
    (hgoes : settles token made = false) : Underway t token p y := by
  obtain ⟨hx, nodes, hextends, hnone⟩ := h
  obtain ⟨-, hafter, more, hmore, hlength⟩ := hx.extends_step hv hn hextends.strung hstep
  refine ⟨hafter, _, hextends.trans hmore, fun heof => ?_⟩
  have hkept : made.consumed = false := by
    have hne : (token.term != Term.eof) = true := bne_iff_ne.mpr heof
    simp only [settles, hne, Bool.and_true, Bool.or_eq_false_iff] at hgoes
    exact hgoes.2
  rw [hnone heof, List.nil_append]
  exact List.length_eq_zero_iff.mp (by rw [hlength, hkept]; rfl)

/-- Feeding a token that is not the end of input adds it once. The end of input may be consumed any
number of times before it is accepted. -/
theorem Alone.extends_advance (halone : Alone t p) (hv : t.Valid) (hn : t.Nestless)
    (hstrung : p.Strung) {fuel : Nat} {made : Step} (h : advance fuel token p = .ok made q) :
    Alone t q ∧ (made = .accepted ↔ token.term = Term.eof) ∧ ∃ nodes, Extends t token p q nodes ∧
      (token.term ≠ Term.eof → nodes.length = 1) := by
  have hbegun : Underway t token p p := ⟨halone, [], hstrung.extends_self, fun _ => rfl⟩
  have hends := advance_ends (fun hI => hI.alone.sound.suspended_eq hn)
    (fun hI => hI.step hv hn) fuel hbegun
  rw [h] at hends
  obtain ⟨hsettles, x, ⟨hx, nodes, hextends, hnone⟩, hstep⟩ := hends
  obtain ⟨hout, hafter, more, hmore, hlength⟩ := hx.extends_step hv hn hextends.strung hstep
  have haccepted : made = .accepted → token.term = Term.eof := by
    rintro rfl
    exact hout.accepted_inv.2.1
  simp only [settles, Bool.or_eq_true, beq_iff_eq, Bool.and_eq_true, bne_iff_ne] at hsettles
  refine ⟨hafter, ⟨haccepted, fun heof => ?_⟩, _, hextends.trans hmore, fun hne => ?_⟩
  · exact hsettles.resolve_right fun hboth => hboth.2 heof
  · have hconsumed := (hsettles.resolve_left fun hacc => hne (haccepted hacc)).1
    rw [hnone hne, List.nil_append, hlength, if_pos hconsumed]

/-- Feeding a list of tokens adds the tokens in front of the end of input, each once, and what was
consumed for the end of input. -/
theorem Alone.extends_feed (hv : t.Valid) (hn : t.Nestless) {fuel : Nat} :
    ∀ {tokens : List Token} {stop : Nat} {p : Parse}, Alone t p → p.Strung →
      feed fuel tokens stop p = .ok () q → q.Strung ∧ ∃ leading trailing,
        q.builder.tokens = p.builder.tokens ++ (leading ++ trailing) ∧
        List.Forall₂ (Carries t) (bodyTokens tokens) leading ∧
        ∀ n ∈ trailing, Carries t (endToken tokens stop) n := by
  intro tokens
  induction tokens with
  | nil =>
    intro stop p halone hstrung h
    obtain ⟨made, hadvance⟩ : ∃ made, advance fuel (Token.eof stop) p = .ok made q := by
      simp only [feed, run_bind] at h
      split at h
      · cases h
        exact ⟨_, ‹_›⟩
      · cases h
    obtain ⟨-, -, nodes, hextends, -⟩ := halone.extends_advance hv hn hstrung hadvance
    exact ⟨hextends.strung, [], nodes, hextends.tokens_eq, .nil, hextends.carries⟩
  | cons token rest ih =>
    intro stop p halone hstrung h
    rw [feed] at h
    cases hstop : token.stop? with
    | none =>
      rw [hstop] at h
      cases h
    | some stop' =>
      rw [hstop] at h
      simp only [run_bind] at h
      cases hadvance : advance fuel token p with
      | error halt x => simp [hadvance] at h
      | ok made x =>
        simp only [hadvance] at h
        obtain ⟨hx, haccepted, nodes, hextends, hone⟩ :=
          halone.extends_advance hv hn hstrung hadvance
        -- an end of input among the tokens ends the parse, and what is behind it is not fed
        by_cases heof : token.term = Term.eof
        · rw [if_pos (haccepted.mpr heof)] at h
          cases h
          refine ⟨hextends.strung, [], nodes, hextends.tokens_eq, ?_, ?_⟩
          · rw [bodyTokens, List.takeWhile_cons_of_neg (by simp [heof])]
            exact .nil
          · rw [endToken, if_pos heof]
            exact hextends.carries
        · rw [if_neg (mt haccepted.mp heof)] at h
          obtain ⟨hstrung', leading, trailing, htokens, hleading, htrailing⟩ :=
            ih hx hextends.strung h
          obtain ⟨node, rfl⟩ := List.length_eq_one_iff.mp (hone heof)
          refine ⟨hstrung', node :: leading, trailing, ?_, ?_, ?_⟩
          · rw [htokens, hextends.tokens_eq, List.append_assoc]
            rfl
          · rw [bodyTokens, List.takeWhile_cons_of_pos (by simpa using heof)]
            exact .cons (hextends.carries node List.mem_cons_self) hleading
          · rw [endToken, if_neg heof, (Token.stop?_eq_some_iff.mp hstop).1]
            exact htrailing

/-- If a run of a single grammar accepts, the tokens of its tree are, from left to right, those of
the input in front of its end, each once, with its span and as the grammar can read it, and behind
them only such as were consumed for the end of input, with its span, as itself or as an error. The
frontier of the tree are their terms. -/
theorem tokens_of_parse (hv : t.Valid) (hn : t.Nestless) {fuel : Nat} {tokens : List Token}
    (h : parse fuel t tokens o = .ok () q) :
    ∃ leading trailing, (Tree.ofEvents q.events).tokens = leading ++ trailing ∧
      List.Forall₂ (Carries t) (bodyTokens tokens) leading ∧
      (∀ n ∈ trailing, (endToken tokens 0).span? = some n.span ∧
        (n.term = Term.eof ∨ n.term = Term.err)) ∧
      (Tree.ofEvents q.events).frontier = (leading ++ trailing).map Node.term := by
  obtain ⟨hstrung, leading, trailing, htokens, hleading, htrailing⟩ :=
    Alone.extends_feed hv hn (alone_new hv o) (strung_new t o) h
  have hroots : (Tree.ofEvents q.events).roots = q.pending.reverse := by
    rw [← finish_builder]
    rfl
  have htree : (Tree.ofEvents q.events).tokens = leading ++ trailing := by
    rw [Tree.tokens, hroots]
    exact htokens
  refine ⟨leading, trailing, htree, hleading, fun n hn => ?_, ?_⟩
  · obtain ⟨hspan, hreads⟩ := htrailing n hn
    rw [term_endToken] at hreads
    exact ⟨hspan, hv.eq_of_reads_eof hreads⟩
  · rw [← htree, Tree.tokens, Tree.frontier, hroots]
    exact Node.forestLeaves_eq _ hstrung.childless

/-! ## A keyword at the end of the input -/

/-- A word, the term 3, that is read as the keyword 5, then blanks 8 and anything that does not
fit. -/
def keyword : Tables :=
  { start := 0, states := #[0, 0, 0, 0, 4, 0, 2, 11, 0]
    actions := #[5, 1, 0, 0xffff, 8, 1, 4, 1, 2, 0, 0xffff, 0xffff]
    gotos := #[0xffff], specializations := #[3, 5, 0, 0xffff], nested := [], names := [] }

/-- The word is consumed as the keyword, the blank as itself, and then the end of input as an
error. -/
theorem tokens_of_parse_keyword :
    keyword.Valid ∧ keyword.Nestless ∧ ∃ q leading trailing,
      parse 3 keyword [⟨3, 0, 1⟩, ⟨8, 1, 1⟩] {} = .ok () q ∧
      (Tree.ofEvents q.events).tokens = leading ++ trailing ∧
      List.Forall₂ (Carries keyword) [⟨3, 0, 1⟩, ⟨8, 1, 1⟩] leading ∧
      (∀ n ∈ trailing, n.span = ⟨2, 2⟩ ∧ (n.term = Term.eof ∨ n.term = Term.err)) ∧
      (leading ++ trailing).map Node.term = [5, 8, Term.err] := by
  have hv : keyword.Valid := .intro rfl (by simp [keyword])
  have hn : keyword.Nestless := Tables.nestless_of_isNestless rfl
  obtain ⟨q, hq, hfrontier⟩ : ∃ q, parse 3 keyword [⟨3, 0, 1⟩, ⟨8, 1, 1⟩] {} = .ok () q ∧
      (Tree.ofEvents q.events).frontier = [5, 8, Term.err] := ⟨_, rfl, by decide +kernel⟩
  obtain ⟨leading, trailing, htokens, hleading, htrailing, hterms⟩ := tokens_of_parse hv hn hq
  refine ⟨hv, hn, q, leading, trailing, hq, htokens, hleading, fun n hmem => ?_, ?_⟩
  · obtain ⟨hspan, hterm⟩ := htrailing n hmem
    exact ⟨(Option.some.inj hspan).symm, hterm⟩
  · rw [← hterms, hfrontier]

end Parse

end LRMachine
