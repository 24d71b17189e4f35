import LRMachine.Parse
import LRMachine.Tree

/-!
# The pending nodes of a parse

`Parse.builder` is the consumer that has followed the events of a parse, `Parse.pending` its list of
nodes without a parent, newest first. This module says what each change of a parse does to the list,
and where in it the nodes stand that are not skipped (`contentPlaces`).
-/

namespace LRMachine

namespace TreeBuilder

/-- The builder that has followed the events of a log, which has the newest event first. -/
def ofLog (log : List Event) : TreeBuilder := log.foldr (fun e b => b.add e) empty

/-- Follows a list of events. -/
def follow (b : TreeBuilder) (events : List Event) : TreeBuilder := events.foldl add b

theorem follow_append (b : TreeBuilder) (events more : List Event) :
    b.follow (events ++ more) = (b.follow events).follow more := List.foldl_append

theorem follow_induction {P : TreeBuilder → Prop} (hadd : ∀ b event, P b → P (b.add event))
    {b : TreeBuilder} (h : P b) (events : List Event) : P (b.follow events) := by
  induction events generalizing b with
  | nil => exact h
  | cons event rest ih => exact ih (hadd b event h)

theorem pending_add_shift (b : TreeBuilder) (e : ShiftEvent) :
    (b.add (.shift e)).pending = b.shiftNode e :: b.pending.drop e.children := by
  simp [add, replace]

theorem pending_add_reduce (b : TreeBuilder) (e : ReduceEvent) :
    (b.add (.reduce e)).pending =
      b.pending.take e.hoisted ++ b.reduceNode e :: b.pending.drop (e.hoisted + e.children) := rfl

theorem taken_eq_of_split {b : TreeBuilder} {trailing taken below : List Node}
    (h : b.pending = trailing ++ (taken ++ below)) :
    b.taken taken.length trailing.length = taken.reverse := by
  rw [TreeBuilder.taken, h, List.drop_left, List.take_left]

theorem mem_pending_of_mem_taken {b : TreeBuilder} {count keep : Nat} {n : Node}
    (h : n ∈ b.taken count keep) : n ∈ b.pending :=
  List.mem_of_mem_drop (List.mem_of_mem_take (List.mem_reverse.mp h))

theorem dissolves_iff {term : Term} {n : Node} :
    dissolves term n = true ↔ n.repeats = true ∧ n.term = term := by
  rw [dissolves, Bool.and_eq_true, beq_iff_eq]

/-- The node of a reduction has what it takes for children, and of a repetition of its term the
children. -/
theorem children_reduceNode (b : TreeBuilder) (e : ReduceEvent) :
    (b.reduceNode e).children = (b.taken e.children e.hoisted).flatMap fun n =>
      if n.repeats = true ∧ n.term = e.term then n.children else [n] := by
  unfold reduceNode flatten
  simp only [dissolves_iff]

/-- A reduction replaces what it takes by its node. -/
theorem pending_add_reduce_of_split {b : TreeBuilder} {e : ReduceEvent}
    {trailing taken below : List Node} (h : b.pending = trailing ++ (taken ++ below))
    (hh : e.hoisted = trailing.length) (hc : e.children = taken.length) :
    (b.add (.reduce e)).pending = trailing ++ b.reduceNode e :: below := by
  rw [pending_add_reduce, h, hh, hc, List.take_left, ← List.drop_drop, List.drop_left,
    List.drop_left]

end TreeBuilder

theorem Tree.ofEvents_append (events more : List Event) :
    ofEvents (events ++ more) = ((TreeBuilder.empty.follow events).follow more).finish :=
  congrArg TreeBuilder.finish (TreeBuilder.empty.follow_append events more)

namespace Parse

/-- The consumer that has followed the events of a parse. -/
def builder (p : Parse) : TreeBuilder := .ofLog p.log

theorem finish_builder (p : Parse) : p.builder.finish = Tree.ofEvents p.events := by
  rw [Tree.ofEvents, events, List.foldl_reverse]
  rfl

/-- The nodes that are pending with the consumer, newest first. -/
def pending (p : Parse) : List Node := p.builder.pending

theorem pending_consumed (p : Parse) (term : Term) (span : Span) (skipped : Bool) :
    (p.consumed term span skipped).pending =
      p.builder.shiftNode ⟨term, span, p.mount, skipped⟩ :: p.pending.drop p.mount :=
  p.builder.pending_add_shift _

theorem builder_consumed {p : Parse} (hm : p.mount = 0) (term : Term) (span : Span)
    (skipped : Bool) :
    (p.consumed term span skipped).builder = p.builder.add (.shift ⟨term, span, 0, skipped⟩) := by
  show p.builder.add (.shift ⟨term, span, p.mount, skipped⟩) = _
  rw [hm]

theorem pending_consumed_unmounted {p : Parse} (hm : p.mount = 0) (term : Term) (span : Span)
    (skipped : Bool) :
    (p.consumed term span skipped).pending =
      p.builder.shiftNode ⟨term, span, 0, skipped⟩ :: p.pending := by
  rw [pending, builder_consumed hm, TreeBuilder.pending_add_shift]
  rfl

end Parse

/-! ## The places of the content -/

/-- The places of the nodes that are not skipped in a list with the newest node first; the place of
a node is the number of older nodes. -/
def contentPlaces : List Node → List Nat
  | [] => []
  | node :: older =>
    if node.skipped then contentPlaces older else older.length :: contentPlaces older

theorem contentPlaces_cons_skipped {node : Node} (h : node.skipped = true) (older : List Node) :
    contentPlaces (node :: older) = contentPlaces older := by
  rw [contentPlaces, if_pos h]

theorem contentPlaces_cons_content {node : Node} (h : node.skipped = false) (older : List Node) :
    contentPlaces (node :: older) = older.length :: contentPlaces older := by
  rw [contentPlaces, if_neg (by simp [h])]

theorem length_contentPlaces {nodes : List Node} (h : ∀ n ∈ nodes, n.skipped = false) :
    (contentPlaces nodes).length = nodes.length := by
  induction nodes with
  | nil => rfl
  | cons node older ih =>
    obtain ⟨hnode, holder⟩ := List.forall_mem_cons.mp h
    rw [contentPlaces_cons_content hnode, List.length_cons, List.length_cons, ih holder]

theorem skipped_of_contentPlaces_eq_nil {nodes : List Node} (h : contentPlaces nodes = []) :
    ∀ n ∈ nodes, n.skipped = true := by
  induction nodes with
  | nil => simp
  | cons node older ih =>
    by_cases hs : node.skipped = true
    · rw [contentPlaces_cons_skipped hs] at h
      exact List.forall_mem_cons.mpr ⟨hs, ih h⟩
    · rw [contentPlaces_cons_content (by simpa using hs)] at h
      cases h

theorem contentPlaces_append_skipped {newer : List Node} (h : ∀ n ∈ newer, n.skipped = true)
    (older : List Node) : contentPlaces (newer ++ older) = contentPlaces older := by
  induction newer with
  | nil => rfl
  | cons node newer ih =>
    rw [List.cons_append, contentPlaces_cons_skipped (h node (by simp))]
    exact ih fun n hn => h n (by simp [hn])

/-- The node at a place of the content splits the list. -/
theorem exists_split_of_contentPlaces :
    ∀ {nodes : List Node} {k place : Nat}, (contentPlaces nodes)[k]? = some place →
      ∃ newer node older, nodes = newer ++ node :: older ∧ node.skipped = false ∧
        older.length = place ∧ contentPlaces older = (contentPlaces nodes).drop (k + 1) := by
  intro nodes
  induction nodes with
  | nil => intro k place h; simp [contentPlaces] at h
  | cons head rest ih =>
    intro k place h
    by_cases hs : head.skipped = true
    · rw [contentPlaces_cons_skipped hs] at h ⊢
      obtain ⟨newer, node, older, rfl, hnode, hlen, hplaces⟩ := ih h
      exact ⟨head :: newer, node, older, rfl, hnode, hlen, hplaces⟩
    · have hs' : head.skipped = false := by simpa using hs
      rw [contentPlaces_cons_content hs'] at h ⊢
      cases k with
      | zero =>
        refine ⟨[], head, rest, rfl, hs', by simpa using h, ?_⟩
        simp
      | succ k =>
        obtain ⟨newer, node, older, rfl, hnode, hlen, hplaces⟩ := ih (by simpa using h)
        exact ⟨head :: newer, node, older, rfl, hnode, hlen, by simpa using hplaces⟩

theorem lt_of_mem_contentPlaces {nodes : List Node} {place : Nat}
    (h : place ∈ contentPlaces nodes) : place < nodes.length := by
  obtain ⟨k, hk⟩ := List.getElem?_of_mem h
  obtain ⟨newer, node, older, rfl, -, rfl, -⟩ := exists_split_of_contentPlaces hk
  simp only [List.length_append, List.length_cons]
  omega

/-- The skipped nodes in front of the newest content. -/
def trailingSkipped (nodes : List Node) : List Node := nodes.takeWhile (·.skipped)

theorem trailingSkipped_all (nodes : List Node) : ∀ n ∈ trailingSkipped nodes, n.skipped = true :=
  List.all_eq_true.mp List.all_takeWhile

/-- What trails a list with a node that is not skipped trails the part in front of the node. -/
theorem trailingSkipped_append_cons {newer below : List Node} {node : Node}
    (h : node.skipped = false) :
    trailingSkipped (newer ++ node :: below) = trailingSkipped newer := by
  unfold trailingSkipped
  rw [List.takeWhile_append, List.takeWhile_cons_of_neg (by simp [h])]
  split
  · rename_i hall
    rw [List.append_nil]
    exact ((List.takeWhile_prefix _).eq_of_length hall).symm
  · rfl

/-- Without the skipped nodes in front, a list that ends with a node that is not skipped begins with
one. -/
theorem content_of_head? {newer : List Node} {node : Node} (h : node.skipped = false) :
    ∀ n ∈ (newer.dropWhile (·.skipped) ++ [node]).head?, n.skipped = false := by
  intro first hfirst
  rw [List.head?_append] at hfirst
  cases hhead : (newer.dropWhile (·.skipped)).head? with
  | none =>
    obtain rfl : node = first := by simpa [hhead] using hfirst
    exact h
  | some newest =>
    obtain rfl : newest = first := by simpa [hhead] using hfirst
    have hnot := List.head?_dropWhile_not (·.skipped) newer
    simpa [hhead] using hnot

end LRMachine
