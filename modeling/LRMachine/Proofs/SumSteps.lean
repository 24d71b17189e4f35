import LRMachine.Proofs.PlainSteps
import LRMachine.Tree.Text

/-!
# Steps over the tables of sums

The five states of the tables of sums have short rows of actions (`sumActions`). Over them a parse
is known by the states on its stack and the texts of its pending nodes, in which blanks do not show
(`Summing`); a blank changes neither, a shift adds to both, and a reduction of everything above the
base frame brackets the texts.
-/

namespace LRMachine.Grammar

open Parse

/-! ## The tables -/

/-- The actions of a state, by term. -/
def sumActions : StateId → List (Term × Action)
  | 0 => [(3, .shift 1), (8, .skip 0)]
  | 1 => [(5, .reduce ⟨7, 1, false, false⟩), (0, .reduce ⟨7, 1, false, false⟩), (8, .skip 1)]
  | 2 => [(5, .shift 3), (8, .skip 2)]
  | 3 => [(3, .shift 4), (8, .skip 3)]
  | 4 => [(5, .reduce ⟨7, 3, false, false⟩), (0, .reduce ⟨7, 3, false, false⟩), (8, .skip 4)]
  | _ => []

theorem state_cases {state : StateId} (h : state.toNat < sum.stateCount) :
    state = 0 ∨ state = 1 ∨ state = 2 ∨ state = 3 ∨ state = 4 := by
  have hlt : state.toNat < 5 := h
  have hcases : state.toNat = 0 ∨ state.toNat = 1 ∨ state.toNat = 2 ∨ state.toNat = 3 ∨
      state.toNat = 4 := by omega
  simp only [← UInt16.toNat_inj]
  exact hcases

theorem action_sum {state : StateId} (h : state.toNat < sum.stateCount) (term : Term) :
    sum.action state term = .ok ((sumActions state).lookup term) := by
  rcases state_cases h with rfl | rfl | rfl | rfl | rfl
  all_goals exact Storage.action_eq_lookup rfl rfl rfl term

theorem resolve_sum {state : StateId} (h : state.toNat < sum.stateCount) (term : Term) :
    sum.resolve state term = .ok (((sumActions state).lookup term).map (term, ·)) := by
  have hreadings : sum.readings term = [] := by
    show Specializations.scan term [] = []
    simp [Specializations.scan]
  exact Storage.resolve_of_readings_eq_nil hreadings (action_sum h term)

theorem exists_descriptor_sum {state : StateId} (h : state.toNat < sum.stateCount) :
    ∃ d, sum.descriptor state = .ok d ∧ d.isSkipped = false ∧
      (d.isAccepting = true ↔ state = 2) := by
  rcases state_cases h with rfl | rfl | rfl | rfl | rfl
  all_goals exact ⟨_, rfl, rfl, by decide⟩

theorem lookup_blank {state : StateId} (h : state.toNat < sum.stateCount) :
    (sumActions state).lookup 8 = some (.skip state) := by
  rcases state_cases h with rfl | rfl | rfl | rfl | rfl
  all_goals rfl

theorem lookup_err {state : StateId} (h : state.toNat < sum.stateCount) :
    (sumActions state).lookup Term.err = none := by
  rcases state_cases h with rfl | rfl | rfl | rfl | rfl
  all_goals rfl

/-! ## Steps -/

variable {p : Parse} {token : Token} {state : StateId} {below : List StateId} {texts : List String}

/-- A node of the tree of a sum: it is no repetition, and only what is not skipped has a text. -/
structure Legible (n : Node) : Prop where
  whole : n.repeats = false
  blank : n.skipped = true → n.texts sumNames = []

theorem forestTexts_of_skipped {nodes : List Node} (h : ∀ n ∈ nodes, Legible n)
    (hs : ∀ n ∈ nodes, n.skipped = true) : Node.forestTexts sumNames nodes.reverse = [] :=
  Node.forestTexts_eq_nil fun n hn =>
    (h n (List.mem_reverse.mp hn)).blank (hs n (List.mem_reverse.mp hn))

theorem dissolves_of_whole {n : Node} (h : n.repeats = false) (term : Term) :
    TreeBuilder.dissolves term n = false := by
  rw [TreeBuilder.dissolves, h, Bool.false_and]

theorem flatten_of_whole {term : Term} {nodes : List Node} (h : ∀ n ∈ nodes, n.repeats = false) :
    TreeBuilder.flatten term nodes = nodes := by
  induction nodes with
  | nil => rfl
  | cons node rest ih =>
    obtain ⟨hnode, hrest⟩ := List.forall_mem_cons.mp h
    rw [TreeBuilder.flatten, List.flatMap_cons, dissolves_of_whole hnode]
    exact congrArg (node :: ·) (ih hrest)

/-- A reduction to a sum brackets the texts of what it takes. -/
theorem legible_reduceNode {b : TreeBuilder} {e : ReduceEvent} {taken : List Node}
    (htaken : ∀ n ∈ taken, Legible n) (htakes : b.taken e.children e.hoisted = taken.reverse)
    (hterm : e.term = 7) (hrepeats : e.repeats = false) (hs : e.skipped = false) :
    Legible (b.reduceNode e) ∧ (b.reduceNode e).texts sumNames =
      [Node.bracketed "Sum" (Node.forestTexts sumNames taken.reverse)] := by
  have hwhole : ∀ n ∈ taken.reverse, n.repeats = false :=
    fun n hn => (htaken n (List.mem_reverse.mp hn)).whole
  have hchildren : (b.reduceNode e).children = taken.reverse := by
    rw [← flatten_of_whole hwhole, ← htakes]
    rfl
  have hname : (b.reduceNode e).term = 7 := hterm
  refine ⟨⟨?_, fun hskipped => ?_⟩, ?_⟩
  · show (e.repeats || (b.taken e.children e.hoisted).any (TreeBuilder.dissolves e.term)) = false
    rw [htakes, hrepeats, Bool.false_or, List.any_eq_false]
    intro n hn
    simp [dissolves_of_whole (hwhole n hn)]
  · have hskipped : e.skipped = true := hskipped
    rw [hs] at hskipped
    cases hskipped
  · rw [Node.texts_of_isTagged (by rw [hname]; rfl), hchildren, hname]
    rfl

/-- A parse over the tables of sums has the given states on its stack, the newest first, and pending
nodes with the given texts, the oldest first. -/
structure Summing (p : Parse) (states : List StateId) (texts : List String) : Prop where
  alone : Alone sum p
  counted : p.Counted
  running : p.finished = false
  limit_eq : p.active.stack.limit = 65536
  states_eq : p.active.stack.frames.map Frame.state = states
  texts_eq : Node.forestTexts sumNames p.pending.reverse = texts
  legible : ∀ n ∈ p.pending, Legible n

theorem summing_new : Summing (Parse.new sum {}) [0] [] where
  alone := alone_new sum_obtained.valid {}
  counted := counted_new sum {}
  running := rfl
  limit_eq := rfl
  states_eq := rfl
  texts_eq := rfl
  legible n hn := by cases hn

namespace Summing

theorem standing {states : List StateId} (h : Summing p states texts) : Standing sum p states :=
  ⟨h.alone, h.counted, h.running, h.limit_eq, h.states_eq⟩

theorem tables_eq (h : Summing p (state :: below) texts) : p.tables = sum :=
  h.standing.tables_eq sum_plain

theorem state_eq (h : Summing p (state :: below) texts) : p.state = state := h.standing.state_eq

theorem state_lt (h : Summing p (state :: below) texts) : state.toNat < sum.stateCount :=
  h.standing.state_lt sum_plain

theorem exists_descriptor (h : Summing p (state :: below) texts)
    (ha : token.term = Term.eof → state ≠ 2) :
    ∃ d, sum.descriptor state = .ok d ∧ (token.term = Term.eof → d.isAccepting = false) := by
  obtain ⟨d, hd, -, haccepts⟩ := exists_descriptor_sum h.state_lt
  refine ⟨d, hd, fun heof => ?_⟩
  rw [← Bool.not_eq_true, haccepts]
  exact ha heof

/-- A step that does not accept looks its token up in the row of the state. -/
theorem step_eq (h : Summing p (state :: below) texts) (ha : token.term = Term.eof → state ≠ 2) :
    step token p = match (sumActions state).lookup token.term with
      | some a => apply token.term a token p
      | none => recover token p := by
  obtain ⟨d, hd, hnot⟩ := h.exists_descriptor ha
  rw [h.standing.step_eq sum_plain hd hnot, resolve_sum h.state_lt]
  cases (sumActions state).lookup token.term <;> rfl

theorem step_unexpected (h : Summing p (state :: below) texts)
    (ha : token.term = Term.eof → state ≠ 2) (hrow : (sumActions state).lookup token.term = none) :
    ∃ m, step token p = .error (.error (.unexpected m)) p ∧ m.position = token.start := by
  have herr : p.tables.action p.state Term.err = .ok none := by
    rw [h.tables_eq, h.state_eq, action_sum h.state_lt, lookup_err h.state_lt]
  rw [h.step_eq ha, hrow]
  exact run_recover (h.tables_eq ▸ sum_obtained.valid) h.alone.sound.inTables herr

theorem step_accepted (h : Summing p [2, 0] texts) (ht : token.term = Term.eof) :
    step token p = .ok .accepted p.closed :=
  h.standing.step_accepted sum_plain rfl rfl ht

/-- A blank changes neither the stack nor the texts. -/
theorem step_blank (h : Summing p (state :: below) texts) (ht : token.term = 8)
    (hs : token.stop?.isSome = true) :
    ∃ q, step token p = .ok .skipped q ∧ Summing q (state :: below) texts := by
  obtain ⟨span, hspan⟩ := Token.exists_span hs
  have hstep : step token p = .ok .skipped (p.consumed token.term span true) := by
    rw [h.step_eq (by simp [ht, Term.eof]), ht, lookup_blank h.state_lt]
    exact run_skip hspan
  have hpending := pending_consumed_unmounted h.counted.unmounted token.term span true
  have hnone : (p.builder.shiftNode ⟨token.term, span, 0, true⟩).texts sumNames = [] := by
    refine Node.texts_of_not_isTagged ?_ sumNames
    show token.term.isTagged = false
    rw [ht]
    rfl
  refine ⟨_, hstep, (h.alone.step sum_obtained.valid hstep).2, h.counted.skipped _ _, h.running,
    h.limit_eq, h.states_eq, ?_, ?_⟩
  · rw [hpending, List.reverse_cons, Node.forestTexts_append, Node.forestTexts_singleton, hnone,
      List.append_nil, h.texts_eq]
  · rw [hpending]
    exact List.forall_mem_cons.mpr ⟨⟨rfl, fun _ => hnone⟩, h.legible⟩

theorem step_shift (h : Summing p (state :: below) texts) (target : StateId)
    (hne : token.term ≠ Term.eof)
    (hrow : (sumActions state).lookup token.term = some (.shift target))
    (ht : target.toNat < sum.stateCount) (htag : token.term.isTagged = true)
    (hroom : below.length < 65535) (hs : token.stop?.isSome = true) :
    ∃ q, step token p = .ok .shifted q ∧
      Summing q (target :: state :: below) (texts ++ [token.term.display sumNames]) := by
  obtain ⟨span, hspan⟩ := Token.exists_span hs
  obtain ⟨d, hd, hnot⟩ := h.exists_descriptor fun heof => absurd heof hne
  have hresolve := resolve_sum h.state_lt token.term
  rw [hrow] at hresolve
  obtain ⟨hstep, hq⟩ := h.standing.step_shift sum_plain sum_obtained.valid hd hnot hresolve ht hroom
    hspan
  have hpending := pending_consumed_unmounted h.counted.unmounted token.term span false
  have hname : (p.builder.shiftNode ⟨token.term, span, 0, false⟩).texts sumNames =
      [token.term.display sumNames] := Node.texts_of_isTagged htag sumNames
  refine ⟨_, hstep, hq.alone, hq.counted, hq.running, hq.limit_eq, hq.states_eq, ?_, ?_⟩
  · show Node.forestTexts sumNames (p.consumed token.term span false).pending.reverse = _
    rw [hpending, List.reverse_cons, Node.forestTexts_append, Node.forestTexts_singleton, hname,
      h.texts_eq]
  · show ∀ n ∈ (p.consumed token.term span false).pending, Legible n
    rw [hpending]
    exact List.forall_mem_cons.mpr ⟨⟨rfl, fun hskipped => by cases hskipped⟩, h.legible⟩

/-- A reduction of all frames above the base frame makes one node of everything: blanks alone stay
in front of it and behind it. -/
theorem texts_reduced (h : Summing p (state :: below) texts) {r : Reduction} {lowest : Frame}
    {stack : Stack} (hl : Stands p r false lowest stack) (hall : r.depth.toNat = below.length)
    (hterm : r.term = 7) (hrepeats : r.repeats = false) :
    Node.forestTexts sumNames
        (p.builder.add (.reduce (p.reduceEvent r false lowest))).pending.reverse =
        [Node.bracketed "Sum" texts] ∧
      ∀ n ∈ (p.builder.add (.reduce (p.reduceEvent r false lowest))).pending, Legible n := by
  obtain ⟨-, trailing, taken, older, htakes, -, -, -⟩ := h.counted.takesPopped hl
  have hpending : p.pending = trailing ++ (taken ++ older) := htakes.pending_eq
  have hlegible := h.legible
  rw [hpending, List.forall_mem_append, List.forall_mem_append] at hlegible
  obtain ⟨htrailing, htaken, holder⟩ := hlegible
  -- all frames above the base frame are popped, so only blanks are older
  have hplaces : contentPlaces older = [] := by
    rw [htakes.places_below, List.map_eq_nil_iff, List.drop_eq_nil_iff, ← p.active.stack.height_eq,
      h.standing.height_eq]
    exact Nat.le_of_eq hall.symm
  have hfront := forestTexts_of_skipped holder (skipped_of_contentPlaces_eq_nil hplaces)
  have hback := forestTexts_of_skipped htrailing htakes.trailing_skipped
  have htexts : Node.forestTexts sumNames taken.reverse = texts := by
    rw [← h.texts_eq, hpending]
    simp only [List.reverse_append, Node.forestTexts_append, hfront, hback, List.nil_append,
      List.append_nil]
  obtain ⟨hnode, hname⟩ := legible_reduceNode htaken htakes.children_eq hterm hrepeats rfl
  rw [htexts] at hname
  rw [htakes.pending_after]
  constructor
  · simp only [List.reverse_append, List.reverse_cons, Node.forestTexts_append,
      Node.forestTexts_singleton, hfront, hback, hname, List.nil_append, List.append_nil]
  · exact List.forall_mem_append.mpr ⟨htrailing, List.forall_mem_cons.mpr ⟨hnode, holder⟩⟩

/-- The reduction of everything above the base frame leaves a sum. -/
theorem step_reduce (h : Summing p (state :: below) texts) (depth : UInt16)
    (ha : token.term = Term.eof → state ≠ 2)
    (hrow : (sumActions state).lookup token.term = some (.reduce ⟨7, depth, false, false⟩))
    (hdepth : depth.toNat = below.length) (hroom : below.length < 65535)
    (hbottom : (state :: below).drop below.length = [0]) :
    ∃ q, step token p = .ok .reduced q ∧ Summing q [2, 0] [Node.bracketed "Sum" texts] := by
  obtain ⟨d, hd, hnot⟩ := h.exists_descriptor ha
  have hresolve := resolve_sum h.state_lt token.term
  rw [hrow] at hresolve
  rw [← hdepth] at hbottom
  have hgoto : sum.goto 0 7 = .ok (some 2) := rfl
  obtain ⟨lowest, stack, hl, hstep, hq⟩ := h.standing.step_reduce sum_plain sum_obtained.valid hd
    hnot hresolve rfl (Nat.le_of_eq hdepth) hroom hbottom hgoto (by decide)
  obtain ⟨htexts, hlegible⟩ := h.texts_reduced hl hdepth rfl rfl
  exact ⟨_, hstep, hq.alone, hq.counted, hq.running, hq.limit_eq, hq.states_eq, htexts, hlegible⟩

end Summing

end LRMachine.Grammar
