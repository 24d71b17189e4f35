import Mathlib.Data.List.Forall2
import LRMachine.Proofs.DraftLookups
import LRMachine.Proofs.PlainSteps

/-!
# A repetition of any length

The tables of a list of items fold each item into a repetition and join it with the repetition of
the items in front of it. Between its calls a parse over them is at one of three stages: nothing was
read, one item, or a repetition and an item (`ListOutline`). With the next token all that was read
becomes one repetition (`ListStage.gather`), whose children are the items, since the tree builder
takes the joined repetitions apart. At the end of input the repetition becomes a list
(`parse_repetition`).
-/

namespace LRMachine.Parse

/-! ## The tables -/

/-- The calls that make the tables of lists: an item is the term 3, a list the term 5, and the
repetition of items the term 6. -/
def repetitionCalls : List Draft.Call :=
  [.addState (.plain 0), .addState (.plain 0), .addState (.plain 0),
    .addState (.plain Descriptor.acceptingFlag), .addState (.plain 0),
    .addAction ⟨0, 3, .shift 1⟩, .addAction ⟨0, Term.eof, .reduce ⟨5, 0, false, false⟩⟩,
    .addGoto ⟨0, 6, 2⟩, .addGoto ⟨0, 5, 3⟩,
    .addAction ⟨1, 3, (Action.reduce ⟨6, 1, false, false⟩).repeating⟩,
    .addAction ⟨1, Term.eof, (Action.reduce ⟨6, 1, false, false⟩).repeating⟩,
    .addAction ⟨2, 3, .shift 1⟩, .addAction ⟨2, Term.eof, .reduce ⟨5, 1, false, false⟩⟩,
    .addGoto ⟨2, 6, 4⟩,
    .addAction ⟨4, 3, .reduce ⟨6, 2, false, false⟩⟩,
    .addAction ⟨4, Term.eof, .reduce ⟨6, 2, false, false⟩⟩]

/-- The tables of lists. State 1 holds an item, state 2 a repetition in front, state 3 a list, and
state 4 a repetition and the repetition of one more item. -/
def repetition : Tables where
  start := 0
  states := #[0, 0, 0, 0, 7, 5, 0, 14, 6, 2, 21, 9, 0, 22, 10]
  actions := #[3, 1, 0, 0, 5, 1, 0xffff, 3, 6, 11, 0, 6, 11, 0xffff, 3, 1, 0, 0, 5, 9, 0xffff,
    0xffff, 3, 6, 17, 0, 6, 17, 0xffff]
  gotos := #[6, 2, 5, 3, 0xffff, 0xffff, 6, 4, 0xffff, 0xffff, 0xffff]
  specializations := #[]
  nested := []
  names := []

theorem layOut_repetitionCalls : (Draft.ofCalls repetitionCalls).layOut = .ok repetition := rfl

theorem repetition_valid : repetition.Valid := .intro rfl (by simp [repetition])

theorem repetition_plain : repetition.Plain := Tables.plain_of_isPlain rfl

/-- The actions of a state, by term. -/
def repetitionActions : StateId → List (Term × Action)
  | 0 => [(3, .shift 1), (0, .reduce ⟨5, 0, false, false⟩)]
  | 1 => [(3, .reduce ⟨6, 1, true, false⟩), (0, .reduce ⟨6, 1, true, false⟩)]
  | 2 => [(3, .shift 1), (0, .reduce ⟨5, 1, false, false⟩)]
  | 4 => [(3, .reduce ⟨6, 2, false, false⟩), (0, .reduce ⟨6, 2, false, false⟩)]
  | _ => []

theorem resolve_repetition {state : StateId} (h : state.toNat < repetition.stateCount)
    (term : Term) : repetition.resolve state term =
      .ok (((repetitionActions state).lookup term).map (term, ·)) := by
  have hreadings : repetition.readings term = [] := by
    show Specializations.scan term [] = []
    simp [Specializations.scan]
  have hlt : state.toNat < 5 := h
  have hcases : state = 0 ∨ state = 1 ∨ state = 2 ∨ state = 3 ∨ state = 4 := by
    simp only [← UInt16.toNat_inj]
    show state.toNat = 0 ∨ state.toNat = 1 ∨ state.toNat = 2 ∨ state.toNat = 3 ∨ state.toNat = 4
    omega
  refine Storage.resolve_of_readings_eq_nil hreadings ?_
  rcases hcases with rfl | rfl | rfl | rfl | rfl
  all_goals exact Storage.action_eq_lookup rfl rfl rfl term

/-! ## What was reduced -/

/-- The terms of the reductions among events, each with the flag of the reduction. -/
def reductionsIn (events : List Event) : List (Term × Bool) :=
  events.filterMap fun
    | .reduce e => some (e.term, e.repeats)
    | _ => none

/-- The reductions that fold items into repetitions, and those that join repetitions. -/
def foldings (folds joins : Nat) : List (Term × Bool) :=
  List.replicate folds (6, true) ++ List.replicate joins (6, false)

/-- A repetition of the given items. -/
structure IsRepetition (tokens : List Token) (n : Node) : Prop where
  term_eq : n.term = 6
  isToken : n.isToken = false
  repeats_eq : n.repeats = true
  items : List.Forall₂ (IsLeaf 3) tokens n.children

theorem IsRepetition.dissolves {tokens : List Token} {n : Node} (h : IsRepetition tokens n) :
    TreeBuilder.dissolves 6 n = true := by
  rw [TreeBuilder.dissolves, h.repeats_eq, h.term_eq]
  rfl

theorem IsNodeOf.repetition_of_item {token : Token} {item n : Node} (hitem : IsLeaf 3 token item)
    (h : IsNodeOf ⟨6, 1, true, false⟩ [item] n) : IsRepetition [token] n := by
  have hkept : TreeBuilder.flatten 6 [item] = [item] := by
    simp [TreeBuilder.flatten, TreeBuilder.dissolves, hitem.repeats_eq]
  refine ⟨h.term_eq, h.isToken, h.repeats_eq, ?_⟩
  rw [h.children_eq]
  show List.Forall₂ _ _ (TreeBuilder.flatten 6 [item])
  rw [hkept]
  exact .cons hitem .nil

/-- Repetitions that are joined become one of all their items, though the join is not flagged. -/
theorem IsNodeOf.repetition_of_two {tokens more : List Token} {first second n : Node}
    (hfirst : IsRepetition tokens first) (hsecond : IsRepetition more second)
    (h : IsNodeOf ⟨6, 2, false, false⟩ [first, second] n) : IsRepetition (tokens ++ more) n := by
  have hjoined : TreeBuilder.flatten 6 [first, second] = first.children ++ second.children := by
    simp [TreeBuilder.flatten, hfirst.dissolves, hsecond.dissolves]
  refine ⟨h.term_eq, h.isToken, ?_, ?_⟩
  · rw [h.repeats_eq]
    show (false || List.any _ (TreeBuilder.dissolves 6)) = true
    simp [hfirst.dissolves]
  · rw [h.children_eq]
    show List.Forall₂ _ _ (TreeBuilder.flatten 6 [first, second])
    rw [hjoined]
    exact List.rel_append hfirst.items hsecond.items

/-! ## Steps -/

variable {p : Parse} {token last : Token} {tokens : List Token} {nodes : List Node}

theorem stepUntil_of_unwanted {wanted : Step → Bool} {made : Step} {q : Parse}
    (h : step token p = .ok made q) (hw : wanted made = false) (fuel : Nat) :
    stepUntil wanted token (fuel + 1) p = stepUntil wanted token fuel q := by
  rw [run_stepUntil, h]
  exact if_neg (by simp [hw])

theorem reductionsIn_reduce (e : ReduceEvent) (log : List Event) :
    reductionsIn (.reduce e :: log) = (e.term, e.repeats) :: reductionsIn log := rfl

theorem Holding.step_item {state : StateId} {below : List StateId}
    (h : Holding repetition p (state :: below) nodes) (hstate : state = 0 ∨ state = 2)
    (hroom : below.length < 65535) (ht : token.term = 3) (hs : token.stop?.isSome = true) :
    ∃ q n, step token p = .ok .shifted q ∧ Holding repetition q (1 :: state :: below) (n :: nodes) ∧
      IsLeaf 3 token n ∧ reductionsIn q.log = reductionsIn p.log := by
  have hrow : (repetitionActions state).lookup 3 = some (.shift 1) := by
    rcases hstate with rfl | rfl <;> rfl
  have hlt := h.toStanding.state_lt repetition_plain
  obtain ⟨d, hd⟩ := Storage.exists_descriptor hlt
  have hresolve : repetition.resolve state token.term = .ok (some (3, .shift 1)) := by
    rw [ht, resolve_repetition hlt, hrow]
    rfl
  obtain ⟨q, n, e, hstep, hq, hn, hlog⟩ := h.step_shift repetition_plain repetition_valid hd
    (fun heof => by rw [ht] at heof; cases heof) hresolve (by decide) hroom hs
  exact ⟨q, n, hstep, hq, hn, by rw [hlog]; rfl⟩

theorem Holding.step_fold {under target : StateId} {rest : List StateId} {item : Node}
    (h : Holding repetition p (1 :: under :: rest) (item :: nodes)) (hitem : IsLeaf 3 last item)
    (hroom : rest.length < 65534) (hgoto : repetition.goto under 6 = .ok (some target))
    (hlt : target.toNat < repetition.stateCount) (ht : token.term = 3 ∨ token.term = Term.eof) :
    ∃ q n, step token p = .ok .reduced q ∧
      Holding repetition q (target :: under :: rest) (n :: nodes) ∧ IsRepetition [last] n ∧
      reductionsIn q.log = (6, true) :: reductionsIn p.log := by
  have hlt₁ : (1 : StateId).toNat < repetition.stateCount := by decide
  have hresolve := resolve_repetition hlt₁ token.term
  have hrow : (repetitionActions 1).lookup token.term = some (.reduce ⟨6, 1, true, false⟩) := by
    rcases ht with ht | ht <;> rw [ht] <;> rfl
  rw [hrow] at hresolve
  obtain ⟨q, n, e, hstep, hq, hn, hlog, hterm, hrepeats⟩ :=
    h.step_reduce repetition_plain repetition_valid (d := ⟨0⟩) rfl (fun _ => rfl) hresolve rfl
      (by simp) (by simp; omega) rfl hgoto hlt
  refine ⟨q, n, hstep, hq, IsNodeOf.repetition_of_item hitem hn, ?_⟩
  rw [hlog, reductionsIn_reduce, hterm, hrepeats]

theorem Holding.step_join {newest older : Node}
    (h : Holding repetition p [4, 2, 0] [newest, older]) (hnewest : IsRepetition [last] newest)
    (holder : IsRepetition tokens older) (ht : token.term = 3 ∨ token.term = Term.eof) :
    ∃ q n, step token p = .ok .reduced q ∧ Holding repetition q [2, 0] [n] ∧
      IsRepetition (tokens ++ [last]) n ∧
      reductionsIn q.log = (6, false) :: reductionsIn p.log := by
  have hlt : (4 : StateId).toNat < repetition.stateCount := by decide
  have hresolve := resolve_repetition hlt token.term
  have hrow : (repetitionActions 4).lookup token.term = some (.reduce ⟨6, 2, false, false⟩) := by
    rcases ht with ht | ht <;> rw [ht] <;> rfl
  rw [hrow] at hresolve
  have hgoto : repetition.goto 0 6 = .ok (some 2) := rfl
  obtain ⟨q, n, e, hstep, hq, hn, hlog, hterm, hrepeats⟩ :=
    h.step_reduce repetition_plain repetition_valid (d := ⟨0⟩) rfl (fun _ => rfl) hresolve rfl
      (by decide) (by decide) rfl hgoto (by decide)
  refine ⟨q, n, hstep, hq, IsNodeOf.repetition_of_two holder hnewest hn, ?_⟩
  rw [hlog, reductionsIn_reduce, hterm, hrepeats]

/-- At the end of input what was read becomes a list, which is accepted. -/
theorem Holding.run_list {state : StateId} {below : List StateId}
    (h : Holding repetition p (state :: below) nodes) (depth : UInt16)
    (hrow : (repetitionActions state).lookup Term.eof = some (.reduce ⟨5, depth, false, false⟩))
    (hdepth : depth.toNat = below.length) (hnodes : nodes.length = below.length)
    (hunder : (state :: below).drop below.length = [0]) (hd : repetition.descriptor state = .ok ⟨0⟩)
    (hroom : below.length < 65535) (ht : token.term = Term.eof) :
    ∃ q n, (∀ fuel, stepUntil (settles token) token (fuel + 2) p = .ok .accepted q) ∧
      q.pending = [n] ∧ IsNodeOf ⟨5, depth, false, false⟩ nodes.reverse n ∧
      reductionsIn q.log = (5, false) :: reductionsIn p.log := by
  have hresolve : repetition.resolve state token.term =
      .ok (some (Term.eof, .reduce ⟨5, depth, false, false⟩)) := by
    rw [ht, resolve_repetition (h.toStanding.state_lt repetition_plain), hrow]
    rfl
  rw [← hdepth] at hunder
  have hgoto : repetition.goto 0 5 = .ok (some 3) := rfl
  obtain ⟨x, n, e, hstep, hx, hn, hlog, hterm, hrepeats⟩ :=
    h.step_reduce repetition_plain repetition_valid hd (fun _ => rfl) hresolve rfl
      (Nat.le_of_eq hdepth) hroom hunder hgoto (by decide)
  have haccept := hx.toStanding.step_accepted repetition_plain rfl rfl ht
  have hall : depth.toNat = nodes.length := hdepth.trans hnodes.symm
  -- the reduction is the first step and the acceptance the second, whatever the fuel
  refine ⟨x.closed, n, fun fuel => ?_, ?_, ?_, ?_⟩
  · refine (stepUntil_of_unwanted hstep rfl (fuel + 1)).trans ?_
    rw [run_stepUntil, haccept]
    rfl
  · show x.pending = [n]
    rw [hx.pending_eq]
    show n :: nodes.drop depth.toNat = [n]
    rw [hall, List.drop_length]
  · have htaken : nodes.take depth.toNat = nodes := by rw [hall, List.take_length]
    rw [← htaken]
    exact hn
  · show reductionsIn x.log = _
    rw [hlog, reductionsIn_reduce, hterm, hrepeats]

/-! ## Stages -/

/-- What is on the stack and pending when the given items were read. -/
inductive ListOutline : List Token → List StateId → List Node → Prop
  | start : ListOutline [] [0] []
  | first {last : Token} {item : Node} (hitem : IsLeaf 3 last item) :
    ListOutline [last] [1, 0] [item]
  | more {tokens : List Token} {last : Token} {older item : Node} (hne : tokens ≠ [])
    (holder : IsRepetition tokens older) (hitem : IsLeaf 3 last item) :
    ListOutline (tokens ++ [last]) [1, 2, 0] [item, older]

/-- A parse has read the given items; all but the newest are folded and joined. -/
inductive ListStage (p : Parse) (tokens : List Token) : Prop where
  | intro {states : List StateId} {nodes : List Node} (outline : ListOutline tokens states nodes)
    (holding : Holding repetition p states nodes)
    (trace : (reductionsIn p.log).Perm (foldings (tokens.length - 1) (tokens.length - 2)))

theorem ListOutline.of_nil {states : List StateId} {nodes : List Node}
    (h : ListOutline [] states nodes) : states = [0] ∧ nodes = [] := by
  generalize htokens : ([] : List Token) = tokens at h
  cases h with
  | start => exact ⟨rfl, rfl⟩
  | first => cases htokens
  | more => simp at htokens

theorem ListStage.of_nil (h : ListStage p []) :
    Holding repetition p [0] [] ∧ (reductionsIn p.log).Perm (foldings 0 0) := by
  obtain ⟨outline, h, htrace⟩ := h
  obtain ⟨rfl, rfl⟩ := outline.of_nil
  exact ⟨h, htrace⟩

theorem foldings_fold (folds joins : Nat) :
    ((6, true) :: foldings folds joins).Perm (foldings (folds + 1) joins) := .refl _

theorem foldings_join (folds joins : Nat) :
    ((6, false) :: foldings folds joins).Perm (foldings folds (joins + 1)) := by
  rw [foldings, foldings, List.replicate_succ]
  exact List.perm_middle.symm

theorem stage_new : ListStage (new repetition {}) [] :=
  .intro .start (holding_new repetition_valid) (.refl _)

namespace ListStage

/-- The next token, or the end of input, makes one repetition of all items that were read. -/
theorem gather (h : ListStage p tokens) (hne : tokens ≠ [])
    (ht : token.term = 3 ∨ token.term = Term.eof) :
    ∃ q n steps, steps ≤ 2 ∧
      (∀ fuel, stepUntil (settles token) token (fuel + steps) p =
        stepUntil (settles token) token fuel q) ∧
      Holding repetition q [2, 0] [n] ∧ IsRepetition tokens n ∧
      (reductionsIn q.log).Perm (foldings tokens.length (tokens.length - 1)) := by
  obtain ⟨outline, h, htrace⟩ := h
  cases outline with
  | start => exact absurd rfl hne
  | first hitem =>
    have hgoto : repetition.goto 0 6 = .ok (some 2) := rfl
    obtain ⟨q, n, hstep, hq, hn, hlog⟩ := h.step_fold hitem (by decide) hgoto (by decide) ht
    refine ⟨q, n, 1, by decide, stepUntil_of_unwanted hstep rfl, hq, hn, ?_⟩
    rw [hlog]
    exact (htrace.cons _).trans (foldings_fold 0 0)
  | @more tokens last older item htokens holder hitem =>
    -- the newest item is folded, and then joined with what is in front of it
    have hgoto : repetition.goto 2 6 = .ok (some 4) := rfl
    obtain ⟨x, newest, hfold, hx, hnewest, hlogx⟩ :=
      h.step_fold hitem (by decide) hgoto (by decide) ht
    obtain ⟨q, n, hjoin, hq, hn, hlog⟩ := hx.step_join hnewest holder ht
    obtain ⟨k, hk⟩ := Nat.exists_eq_add_one_of_ne_zero fun h0 =>
      htokens (List.length_eq_zero_iff.mp h0)
    refine ⟨q, n, 2, by decide, fun fuel => ?_, hq, hn, ?_⟩
    · exact (stepUntil_of_unwanted hfold rfl (fuel + 1)).trans
        (stepUntil_of_unwanted hjoin rfl fuel)
    · have hlength : (tokens ++ [last]).length = k + 2 := by simp [hk]
      rw [hlength] at htrace ⊢
      rw [hlog, hlogx]
      exact ((htrace.cons _).cons _).trans
        (((foldings_fold (k + 1) k).cons _).trans (foldings_join (k + 2) k))

theorem running (h : ListStage p tokens) : p.suspended = [] ∧ p.finished = false := by
  obtain ⟨-, h, -⟩ := h
  exact ⟨h.counted.outermost, h.running⟩

theorem advance_item (h : ListStage p tokens) (ht : token.term = 3)
    (hs : token.stop?.isSome = true) : ∃ q, (∀ fuel, 3 ≤ fuel →
      advance fuel token p = .ok .shifted q) ∧ ListStage q (tokens ++ [token]) := by
  have hsettles : settles token .shifted = true := by
    rw [settles, ht]
    rfl
  obtain ⟨hout, hf⟩ := h.running
  -- all that was read is one repetition when the item is shifted, or there is nothing
  by_cases hne : tokens = []
  · subst hne
    obtain ⟨h, htrace⟩ := h.of_nil
    obtain ⟨q, n, hshift, hq, hn, hlog⟩ := h.step_item (.inl rfl) (by decide) ht hs
    refine ⟨q, fun fuel hfuel => ?_, .intro (.first hn) hq (hlog ▸ htrace)⟩
    obtain ⟨m, rfl⟩ : ∃ m, fuel = m + 1 := ⟨fuel - 1, by omega⟩
    rw [run_advance hout hf, run_stepUntil, hshift]
    exact if_pos hsettles
  · obtain ⟨x, n, steps, hsteps, hruns, hx, hn, htrace⟩ := h.gather hne (.inl ht)
    obtain ⟨q, item, hshift, hq, hitem, hlog⟩ := hx.step_item (.inr rfl) (by decide) ht hs
    refine ⟨q, fun fuel hfuel => ?_, .intro (.more hne hn hitem) hq ?_⟩
    · obtain ⟨m, rfl⟩ : ∃ m, fuel = m + 1 + steps := ⟨fuel - 1 - steps, by omega⟩
      have hpos : m + 1 + steps = m + steps + 1 := by omega
      rw [hpos, run_advance hout hf, ← hpos, hruns, run_stepUntil, hshift]
      exact if_pos hsettles
    · rw [hlog, List.length_append, List.length_singleton]
      exact htrace

end ListStage

/-- A parse has made a list of the given items: the tree has the list for its only root, and below
it, unless there are no items, their repetition. -/
structure Listed (tokens : List Token) (p : Parse) : Prop where
  tree : ∃ list, (Tree.ofEvents p.events).roots = [list] ∧ list.term = 5 ∧ list.isToken = false ∧
    (tokens = [] → list.children = []) ∧
    (tokens ≠ [] → ∃ n, list.children = [n] ∧ IsRepetition tokens n)
  trace : (reductionsIn p.events).Perm ((5, false) :: foldings tokens.length (tokens.length - 1))

theorem listed_of_pending {list : Node} (hpending : p.pending = [list]) (hterm : list.term = 5)
    (htoken : list.isToken = false) (hnil : tokens = [] → list.children = [])
    (hitems : tokens ≠ [] → ∃ n, list.children = [n] ∧ IsRepetition tokens n)
    (htrace : (reductionsIn p.log).Perm
      ((5, false) :: foldings tokens.length (tokens.length - 1))) : Listed tokens p := by
  refine ⟨⟨list, ?_, hterm, htoken, hnil, hitems⟩, ?_⟩
  · rw [← finish_builder]
    show p.pending.reverse = [list]
    rw [hpending, List.reverse_singleton]
  · rw [events, reductionsIn, List.filterMap_reverse]
    exact (List.reverse_perm _).trans htrace

namespace ListStage

/-- The end of input makes a list of all that was read. -/
theorem advance_end (h : ListStage p tokens) (ht : token.term = Term.eof) :
    ∃ q, (∀ fuel, 4 ≤ fuel → advance fuel token p = .ok .accepted q) ∧ Listed tokens q := by
  obtain ⟨hout, hf⟩ := h.running
  by_cases hne : tokens = []
  · subst hne
    obtain ⟨h, htrace⟩ := h.of_nil
    obtain ⟨q, list, hruns, hpending, hlist, hlog⟩ :=
      h.run_list 0 rfl rfl rfl rfl rfl (by decide) ht
    refine ⟨q, fun fuel hfuel => ?_, listed_of_pending hpending hlist.term_eq hlist.isToken
      (fun _ => hlist.children_eq) (fun hne => absurd rfl hne) (hlog ▸ htrace.cons _)⟩
    obtain ⟨m, rfl⟩ : ∃ m, fuel = m + 2 := ⟨fuel - 2, by omega⟩
    rw [run_advance hout hf]
    exact hruns m
  · obtain ⟨x, n, steps, hsteps, hgather, hx, hn, htrace⟩ := h.gather hne (.inr ht)
    obtain ⟨q, list, hruns, hpending, hlist, hlog⟩ :=
      hx.run_list 1 rfl rfl rfl rfl rfl (by decide) ht
    -- a repetition stays whole below a list
    have hwhole : TreeBuilder.flatten 5 [n] = [n] := by
      simp [TreeBuilder.flatten, TreeBuilder.dissolves, hn.term_eq]
    refine ⟨q, fun fuel hfuel => ?_, listed_of_pending hpending hlist.term_eq hlist.isToken
      (fun hnil => absurd hnil hne) (fun _ => ⟨n, hlist.children_eq.trans hwhole, hn⟩)
      (hlog ▸ htrace.cons _)⟩
    obtain ⟨m, rfl⟩ : ∃ m, fuel = m + 2 + steps := ⟨fuel - 2 - steps, by omega⟩
    have hpos : m + 2 + steps = m + 1 + steps + 1 := by omega
    rw [hpos, run_advance hout hf, ← hpos, hgather]
    exact hruns m

/-- Items that are fed one after the other end up in the list, behind those that were read. -/
theorem feed {fuel : Nat} (hfuel : 4 ≤ fuel) :
    ∀ {rest tokens : List Token} (stop : Nat) {p : Parse}, ListStage p tokens →
      (∀ token ∈ rest, token.term = 3 ∧ token.stop?.isSome = true) →
      ∃ q, Parse.feed fuel rest stop p = .ok () q ∧ Listed (tokens ++ rest) q := by
  intro rest
  induction rest with
  | nil =>
    intro tokens stop p h _
    have hend : (Token.eof stop).term = Term.eof := rfl
    obtain ⟨q, hadvance, hq⟩ := h.advance_end hend
    refine ⟨q, ?_, by rwa [List.append_nil]⟩
    simp only [Parse.feed, run_bind, hadvance fuel hfuel, run_pure]
  | cons token rest ih =>
    intro tokens stop p h hall
    obtain ⟨⟨ht, hs⟩, hrest⟩ := List.forall_mem_cons.mp hall
    obtain ⟨x, hadvance, hx⟩ := h.advance_item ht hs
    obtain ⟨stop', hstop⟩ := Option.isSome_iff_exists.mp hs
    obtain ⟨q, hfeed, hq⟩ := ih stop' hx hrest
    refine ⟨q, ?_, by rwa [List.append_assoc, List.singleton_append] at hq⟩
    simp only [Parse.feed, hstop, run_bind, hadvance fuel (by omega)]
    exact hfeed

end ListStage

/-- Over the tables that the calls make, any number of items whose ends have 64 bits is a list: the
tree has a list for its only root, without children if there are no items, and otherwise with the
repetition of the items for its only child. Each item was folded, all but one of the folds were
joined, and one list was made. -/
theorem parse_repetition :
    (Draft.ofCalls repetitionCalls).layOut = .ok repetition ∧
    ∀ tokens : List Token, (∀ token ∈ tokens, token.term = 3 ∧ token.stop?.isSome = true) →
      ∀ fuel, 4 ≤ fuel → ∃ q, parse fuel repetition tokens {} = .ok () q ∧
        (∃ list, (Tree.ofEvents q.events).roots = [list] ∧ list.term = 5 ∧ list.isToken = false ∧
          (tokens = [] → list.children = []) ∧
          (tokens ≠ [] → ∃ n, list.children = [n] ∧ n.term = 6 ∧ n.isToken = false ∧
            List.Forall₂ (IsLeaf 3) tokens n.children)) ∧
        (reductionsIn q.events).Perm ((5, false) ::
          (List.replicate tokens.length (6, true) ++
            List.replicate (tokens.length - 1) (6, false))) := by
  refine ⟨layOut_repetitionCalls, fun tokens h fuel hfuel => ?_⟩
  obtain ⟨q, hparse, ⟨list, hroots, hterm, htoken, hnil, hitems⟩, htrace⟩ :=
    stage_new.feed hfuel 0 h
  refine ⟨q, hparse, ⟨list, hroots, hterm, htoken, hnil, fun hne => ?_⟩, htrace⟩
  obtain ⟨n, hchildren, hn⟩ := hitems hne
  exact ⟨n, hchildren, hn.term_eq, hn.isToken, hn.items⟩

/-- Two items become the children of one repetition, in order. -/
theorem parse_repetition_of_two :
    ∃ q list n a b, parse 4 repetition [⟨3, 0, 1⟩, ⟨3, 1, 1⟩] {} = .ok () q ∧
      (Tree.ofEvents q.events).roots = [list] ∧ list.children = [n] ∧ n.children = [a, b] ∧
      a.span = ⟨0, 1⟩ ∧ b.span = ⟨1, 2⟩ := by
  obtain ⟨-, hparses⟩ := parse_repetition
  obtain ⟨q, hparse, ⟨list, hroots, -, -, -, hchildren⟩, -⟩ :=
    hparses [⟨3, 0, 1⟩, ⟨3, 1, 1⟩] (by decide) 4 (Nat.le_refl 4)
  obtain ⟨n, hlist, -, -, hitems⟩ := hchildren (by simp)
  generalize hn : n.children = children at hitems
  obtain _ | ⟨ha, _ | ⟨hb, ⟨⟩⟩⟩ := hitems
  exact ⟨q, list, n, _, _, hparse, hroots, hlist, hn, (Option.some.inj ha.span_eq).symm,
    (Option.some.inj hb.span_eq).symm⟩

end LRMachine.Parse
