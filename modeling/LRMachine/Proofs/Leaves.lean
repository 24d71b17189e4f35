import LRMachine.Proofs.TokenOrder

/-!
# The leaves of a tree

A leaf is a token that has adopted nothing. Whatever counts the events give, a reduction moves no
leaf and makes none (`TreeBuilder.leafTokens_add_reduce`), and a shift makes its token a leaf behind
all others if it adopts no item, and otherwise leaves the leaves as they are
(`TreeBuilder.leafTokens_add_shift`). So the frontier of the tree of any list of events are the
terms of the shifts that adopt nothing, in the order of the events (`Tree.frontier_ofEvents`).
-/

namespace LRMachine

/-- The leaves of a tree, from left to right. -/
def Tree.leafTokens (t : Tree) : List Node := t.tokens.filter (·.children.isEmpty)

namespace TreeBuilder

variable {b : TreeBuilder}

/-- The leaves so far, from left to right. -/
def leafTokens (b : TreeBuilder) : List Node := b.tokens.filter (·.children.isEmpty)

/-- A shift adopts no item: it takes none, or none is pending. -/
def adoptsNone (b : TreeBuilder) (e : ShiftEvent) : Bool := e.children == 0 || b.pending.isEmpty

/-- The terms of the shifts that adopt no item, in the order of the events. -/
def unadopting (b : TreeBuilder) : List Event → List Term
  | [] => []
  | .shift e :: rest =>
    if b.adoptsNone e then e.term :: (b.add (.shift e)).unadopting rest
    else (b.add (.shift e)).unadopting rest
  | .reduce e :: rest => (b.add (.reduce e)).unadopting rest
  | .diagnostic d :: rest => (b.add (.diagnostic d)).unadopting rest

/-! ## One event -/

theorem children_shiftNode_eq_nil_iff (b : TreeBuilder) (e : ShiftEvent) :
    (b.shiftNode e).children = [] ↔ b.adoptsNone e = true := by
  have hchildren : (b.shiftNode e).children = ((b.pending.drop 0).take e.children).reverse := rfl
  rw [hchildren, List.drop_zero, List.reverse_eq_nil_iff, List.take_eq_nil_iff, adoptsNone,
    Bool.or_eq_true, beq_iff_eq, List.isEmpty_iff]

/-- A reduction keeps the leaves and their order, whatever it is told to take and to hoist. -/
theorem leafTokens_add_reduce (h : b.TokensStay) (e : ReduceEvent) :
    (b.add (.reduce e)).leafTokens = b.leafTokens := by
  rw [leafTokens, (tokens_add_reduce h e).1, leafTokens]

theorem leafTokens_add_shift (b : TreeBuilder) (e : ShiftEvent) :
    (b.add (.shift e)).leafTokens =
      b.leafTokens ++ if b.adoptsNone e then [b.shiftNode e] else [] := by
  obtain ⟨hbefore, hafter⟩ := b.tokens_shift e
  rw [leafTokens, leafTokens, hafter, hbefore, List.filter_append, List.filter_append]
  by_cases hnone : b.adoptsNone e = true
  · have hchildren := (b.children_shiftNode_eq_nil_iff e).mpr hnone
    have htaken : b.taken e.children 0 = [] := hchildren
    rw [if_pos hnone, htaken, Node.forestTokens, List.filter_nil, List.append_nil,
      List.filter_cons_of_pos (by rw [hchildren]; rfl), List.filter_nil]
  · -- the token is no leaf, and the leaves that it adopts stay where they are
    have hchildren := mt (b.children_shiftNode_eq_nil_iff e).mp hnone
    rw [if_neg hnone, List.append_nil,
      List.filter_cons_of_neg (by simpa [List.isEmpty_iff] using hchildren)]

theorem TokensStay.add (h : b.TokensStay) : ∀ event : Event, (b.add event).TokensStay
  | .shift e => h.add_shift e
  | .reduce e => (tokens_add_reduce h e).2
  | .diagnostic _ => h

/-! ## Any list of events -/

theorem TokensStay.follow (h : b.TokensStay) (events : List Event) :
    (b.follow events).TokensStay :=
  follow_induction (fun _ event h => h.add event) h events

/-- Behind the leaves so far come those of the shifts that adopt nothing. -/
theorem terms_leafTokens_follow (events : List Event) (h : b.TokensStay) :
    (b.follow events).leafTokens.map Node.term =
      b.leafTokens.map Node.term ++ b.unadopting events := by
  induction events generalizing b with
  | nil => rw [unadopting, List.append_nil]; rfl
  | cons event rest ih =>
    show ((b.add event).follow rest).leafTokens.map Node.term = _
    rw [ih (h.add event)]
    cases event with
    | shift e =>
      rw [leafTokens_add_shift, List.map_append, List.append_assoc, unadopting]
      split <;> rfl
    | reduce e => rw [leafTokens_add_reduce h, unadopting]
    | diagnostic d => rfl

theorem tokensStay_empty : empty.TokensStay := by
  intro n hn
  cases hn

end TreeBuilder

namespace Tree

theorem frontier_eq_leafTokens (t : Tree) : t.frontier = t.leafTokens.map Node.term :=
  Node.forestLeaves_eq_filter t.roots

/-- The frontier of the tree of any list of events are the terms of exactly those shifts that adopt
no item, in the order of the events. No reduction and no diagnostic, wherever it comes and whatever
counts it gives, changes the leaves or their order. -/
theorem frontier_ofEvents (events : List Event) :
    (ofEvents events).frontier = TreeBuilder.empty.unadopting events ∧
      (∀ e, (ofEvents (events ++ [.reduce e])).leafTokens = (ofEvents events).leafTokens) ∧
      ∀ d, (ofEvents (events ++ [.diagnostic d])).leafTokens = (ofEvents events).leafTokens := by
  refine ⟨?_, fun e => ?_, fun d => ?_⟩
  · rw [frontier_eq_leafTokens]
    exact TreeBuilder.terms_leafTokens_follow events TreeBuilder.tokensStay_empty
  · rw [ofEvents_append]
    exact TreeBuilder.leafTokens_add_reduce (TreeBuilder.tokensStay_empty.follow events) e
  · rw [ofEvents_append]
    rfl

end Tree

end LRMachine
