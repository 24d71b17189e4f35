import Mathlib.Data.List.Induction
import LRMachine.Proofs.Arena

/-!
# Flattened repetitions

A reduction splices one level only: what it takes and is a repetition of its term gives way to its
own children. That is enough, because no reduced node ever has a child that is a repetition of the
node's own term (`TreeBuilder.Flattened`): the children that are spliced in come from such a node.
So it does not matter in which order and in which groups repetitions of a term are joined. What
comes of it has the children of all of them in a row (`Tree.flat_ofEvents`).
-/

namespace LRMachine

/-- No child of a reduced node is a repetition of the node's own term, and no token passes for a
repetition. -/
structure Node.Flat (n : Node) : Prop where
  isToken_eq : n.repeats = true → n.isToken = false
  children : n.isToken = false → ∀ c ∈ n.children, ¬ (c.repeats = true ∧ c.term = n.term)

namespace TreeBuilder

variable {b b' : TreeBuilder}

/-! ## Flat nodes -/

/-- All nodes that were made are flat. -/
def Flattened (b : TreeBuilder) : Prop := ∀ n ∈ b.nodes.toList, n.Flat

theorem flat_shiftNode (b : TreeBuilder) (e : ShiftEvent) : (b.shiftNode e).Flat where
  isToken_eq h := by cases h
  children h := by cases h

/-- A reduction of flat nodes is flat: what it takes in comes from a node of its own term. -/
theorem Flattened.flat_reduceNode (h : b.Flattened) (hb : b.Numbered) (e : ReduceEvent) :
    (b.reduceNode e).Flat where
  isToken_eq _ := rfl
  children _ c hc := by
    obtain ⟨m, hm, hc⟩ := List.mem_flatMap.mp hc
    have hflat := h m (hb.pending m (mem_pending_of_mem_taken hm)).mem
    split at hc
    · rename_i hd
      obtain ⟨hrepeats, hterm⟩ := dissolves_iff.mp hd
      have hnot := hflat.children (hflat.isToken_eq hrepeats) c hc
      rwa [hterm] at hnot
    · rename_i hd
      rw [List.mem_singleton.mp hc]
      exact fun hboth => hd (dissolves_iff.mpr hboth)

theorem Flattened.push (h : b.Flattened) {new : Node} (hnew : new.Flat)
    (hnodes : b'.nodes.toList = b.nodes.toList ++ [new]) : b'.Flattened := by
  intro n hn
  rw [hnodes] at hn
  rcases List.mem_append.mp hn with hn | hn
  · exact h n hn
  · exact List.mem_singleton.mp hn ▸ hnew

theorem Flattened.add (h : b.Flattened) (hb : b.Numbered) :
    ∀ event : Event, (b.add event).Flattened
  | .shift e => h.push (b.flat_shiftNode e) (b.nodes_add_shift e)
  | .reduce e => h.push (h.flat_reduceNode hb e) (b.nodes_add_reduce e)
  | .diagnostic _ => h

theorem Flattened.follow (h : b.Flattened) (hb : b.Numbered) (events : List Event) :
    (b.follow events).Flattened := by
  have hadd : ∀ (b : TreeBuilder) (event : Event), b.Flattened ∧ b.Numbered →
      (b.add event).Flattened ∧ (b.add event).Numbered :=
    fun _ event ⟨h, hb⟩ => ⟨h.add hb event, hb.add event⟩
  exact (follow_induction hadd ⟨h, hb⟩ events).1

/-! ## The nodes that reductions make -/

theorem nodes_prefix_follow (b : TreeBuilder) (events : List Event) :
    b.nodes.toList <+: (b.follow events).nodes.toList := by
  refine follow_induction (P := fun b' => b.nodes.toList <+: b'.nodes.toList)
    (fun b' event h => h.trans ?_) List.prefix_rfl events
  cases event with
  | shift e => exact ⟨_, (b'.nodes_add_shift e).symm⟩
  | reduce e => exact ⟨_, (b'.nodes_add_reduce e).symm⟩
  | diagnostic d => exact List.prefix_rfl

end TreeBuilder

namespace Tree

/-- A reduction among the events takes the items, and its node in the tree of all events is `n`. -/
def ReducedTo (events : List Event) (e : ReduceEvent) (items : List Node) (n : Node) : Prop :=
  ∃ before after, events = before ++ .reduce e :: after ∧
    items = (TreeBuilder.empty.follow before).taken e.children e.hoisted ∧
    (ofEvents events).nodes.toList[(TreeBuilder.empty.follow before).nodes.size]? = some n

/-- Nodes that come of joining repetitions of a term. The parts stand in a row, and a reduction to
the term that is not flagged joins a group of them, or of what came of joining some. -/
inductive Joins (events : List Event) (term : Term) : List Node → List Node → Prop where
  | nil : Joins events term [] []
  | part {part : Node} {joined parts : List Node} (hrepeats : part.repeats = true)
    (hterm : part.term = term) (rest : Joins events term joined parts) :
    Joins events term (part :: joined) (part :: parts)
  | group {e : ReduceEvent} {items inner : List Node} {n : Node} {joined parts : List Node}
    (reduced : ReducedTo events e items n) (hterm : e.term = term) (hunflagged : e.repeats = false)
    (hne : items ≠ []) (within : Joins events term items inner)
    (rest : Joins events term joined parts) : Joins events term (n :: joined) (inner ++ parts)

variable {events : List Event} {term : Term} {e : ReduceEvent} {items joined parts : List Node}
  {n : Node}

/-- The node of a reduction is kept under the number that was next. -/
theorem node_of_reduce (before : List Event) (e : ReduceEvent) (after : List Event) :
    (ofEvents (before ++ .reduce e :: after)).nodes.toList[
        (TreeBuilder.empty.follow before).nodes.size]? =
      some ((TreeBuilder.empty.follow before).reduceNode e) := by
  generalize hb : TreeBuilder.empty.follow before = b
  obtain ⟨later, hlater⟩ := (b.add (.reduce e)).nodes_prefix_follow after
  have hnodes : (ofEvents (before ++ .reduce e :: after)).nodes.toList =
      b.nodes.toList ++ [b.reduceNode e] ++ later := by
    rw [ofEvents_append, hb, ← b.nodes_add_reduce e, hlater]
    rfl
  rw [hnodes, ← Array.length_toList, List.append_assoc, List.getElem?_append_right
    (Nat.le_refl _), Nat.sub_self]
  rfl

theorem reducedTo_iff : ReducedTo events e items n ↔
    ∃ before after, events = before ++ .reduce e :: after ∧
      items = (TreeBuilder.empty.follow before).taken e.children e.hoisted ∧
      n = (TreeBuilder.empty.follow before).reduceNode e := by
  constructor
  · rintro ⟨before, after, rfl, hitems, hn⟩
    rw [node_of_reduce, Option.some.injEq] at hn
    exact ⟨before, after, rfl, hitems, hn.symm⟩
  · rintro ⟨before, after, rfl, hitems, rfl⟩
    exact ⟨before, after, rfl, hitems, node_of_reduce before e after⟩

/-- The node of a reduction has its items for children, but the children of an item in its place if
it is a repetition of the term. -/
theorem ReducedTo.node (h : ReducedTo events e items n) : n.isToken = false ∧ n.term = e.term ∧
    (n.children = items.flatMap fun item =>
      if item.repeats = true ∧ item.term = n.term then item.children else [item]) ∧
    n.repeats = (e.repeats || items.any (TreeBuilder.dissolves e.term)) := by
  obtain ⟨before, after, -, rfl, rfl⟩ := reducedTo_iff.mp h
  exact ⟨rfl, rfl, TreeBuilder.children_reduceNode _ e, rfl⟩

theorem ReducedTo.append (h : ReducedTo events e items n) (more : List Event) :
    ReducedTo (events ++ more) e items n := by
  obtain ⟨before, after, rfl, hitems, hn⟩ := reducedTo_iff.mp h
  exact reducedTo_iff.mpr ⟨before, after ++ more, by simp, hitems, hn⟩

theorem exists_reducedTo : ∀ (events : List Event), ∀ n ∈ (ofEvents events).nodes.toList,
    n.isToken = false → ∃ e items, ReducedTo events e items n := by
  intro events
  induction events using List.reverseRecOn with
  | nil => intro n hn; cases hn
  | append_singleton events event ih =>
    intro n hn htoken
    have hkept : n ∈ (ofEvents events).nodes.toList →
        ∃ e items, ReducedTo (events ++ [event]) e items n := by
      intro hn
      obtain ⟨e, items, hreduced⟩ := ih n hn htoken
      exact ⟨e, items, hreduced.append [event]⟩
    rw [ofEvents_append] at hn
    cases event with
    | shift e =>
      rcases List.mem_append.mp (TreeBuilder.nodes_add_shift _ e ▸ hn) with hn | hn
      · exact hkept hn
      · rw [List.mem_singleton.mp hn] at htoken
        cases htoken
    | reduce e =>
      rcases List.mem_append.mp (TreeBuilder.nodes_add_reduce _ e ▸ hn) with hn | hn
      · exact hkept hn
      · exact ⟨e, _, reducedTo_iff.mpr ⟨events, [], rfl, rfl, List.mem_singleton.mp hn⟩⟩
    | diagnostic d => exact hkept hn

/-! ## Joined repetitions -/

theorem Joins.append (h : Joins events term joined parts) {joined' parts' : List Node}
    (h' : Joins events term joined' parts') :
    Joins events term (joined ++ joined') (parts ++ parts') := by
  induction h with
  | nil => exact h'
  | part hrepeats hterm _ ih => exact .part hrepeats hterm ih
  | group reduced hterm hunflagged hne within _ _ ih =>
    rw [List.append_assoc]
    exact .group reduced hterm hunflagged hne within ih

theorem Joins.more (h : Joins events term joined parts) (more : List Event) :
    Joins (events ++ more) term joined parts := by
  induction h with
  | nil => exact .nil
  | part hrepeats hterm _ ih => exact .part hrepeats hterm ih
  | group reduced hterm hunflagged hne _ _ within rest =>
    exact .group (reduced.append more) hterm hunflagged hne within rest

/-- What comes of joining repetitions is a row of repetitions, which have the children of the parts
in a row: however they are grouped, a group is again a repetition, and gives way to its children. -/
theorem Joins.children_eq (h : Joins events term joined parts) :
    (∀ m ∈ joined, m.repeats = true ∧ m.term = term) ∧
      joined.flatMap Node.children = parts.flatMap Node.children := by
  induction h with
  | nil => exact ⟨by simp, rfl⟩
  | part hrepeats hterm _ ih =>
    obtain ⟨hall, hchildren⟩ := ih
    refine ⟨List.forall_mem_cons.mpr ⟨⟨hrepeats, hterm⟩, hall⟩, ?_⟩
    rw [List.flatMap_cons, List.flatMap_cons, hchildren]
  | @group e items inner n joined parts reduced hterm hunflagged hne _ _ within rest =>
    obtain ⟨hitems, hinner⟩ := within
    obtain ⟨hall, hchildren⟩ := rest
    obtain ⟨-, hn, hflat, hrepeats⟩ := reduced.node
    -- all items are repetitions of the term, so each gives way to its children
    have hdissolve : n.children = items.flatMap Node.children := by
      rw [hflat]
      refine List.flatMap_congr fun item hitem => ?_
      rw [if_pos]
      exact ⟨(hitems item hitem).1, by rw [(hitems item hitem).2, hn, hterm]⟩
    have hmarked : n.repeats = true := by
      obtain ⟨item, hitem⟩ := List.exists_mem_of_ne_nil items hne
      rw [hrepeats, hunflagged, Bool.false_or, List.any_eq_true]
      refine ⟨item, hitem, TreeBuilder.dissolves_iff.mpr ?_⟩
      rw [hterm]
      exact hitems item hitem
    refine ⟨List.forall_mem_cons.mpr ⟨⟨hmarked, hn.trans hterm⟩, hall⟩, ?_⟩
    rw [List.flatMap_cons, List.flatMap_append, hdissolve, hinner, hchildren]

/-- A reduction of the items in front of the trailing ones puts its node in their place. -/
theorem exists_reducedTo_concat {below trailing : List Node}
    (h : (ofEvents events).roots = below ++ (items ++ trailing)) (hc : e.children = items.length)
    (hh : e.hoisted = trailing.length) :
    ∃ n, (ofEvents (events ++ [.reduce e])).roots = below ++ n :: trailing ∧
      ReducedTo (events ++ [.reduce e]) e items n := by
  have hpending : (TreeBuilder.empty.follow events).pending =
      trailing.reverse ++ (items.reverse ++ below.reverse) := by
    rw [← List.reverse_append, ← List.reverse_append, List.append_assoc, ← h]
    exact (List.reverse_reverse _).symm
  rw [← List.length_reverse] at hc hh
  refine ⟨_, ?_, reducedTo_iff.mpr ⟨events, [], rfl, ?_, rfl⟩⟩
  · rw [ofEvents_append]
    show ((TreeBuilder.empty.follow events).add (.reduce e)).pending.reverse = _
    rw [TreeBuilder.pending_add_reduce_of_split hpending hh hc]
    simp
  · rw [hc, hh, TreeBuilder.taken_eq_of_split hpending, List.reverse_reverse]

end Tree

/-! ## Bracketings -/

/-- A way to bracket a row: a single part, or two rows that are joined. -/
inductive Bracketing where
  | part
  | join (left right : Bracketing)

namespace Bracketing

/-- The number of parts. -/
def width : Bracketing → Nat
  | part => 1
  | join left right => left.width + right.width

/-- The reduction to a term that joins the two items in front of the last `keep`. It is not
flagged. -/
def pairing (term : Term) (span : Span) (keep : Nat) : ReduceEvent :=
  { term, span, depth := 2, children := 2, hoisted := keep }

/-- The reductions to a term that join a row of pending items in front of the last `keep`. -/
def reductions (term : Term) (span : Span) : Bracketing → Nat → List Event
  | part, _ => []
  | join left right, keep =>
    right.reductions term span keep ++ (left.reductions term span (keep + 1) ++
      [.reduce (pairing term span keep)])

theorem exists_append_of_width {left right : Bracketing} {parts : List Node}
    (h : parts.length = (join left right).width) :
    ∃ ls rs, parts = ls ++ rs ∧ ls.length = left.width ∧ rs.length = right.width := by
  rw [width] at h
  refine ⟨parts.take left.width, parts.drop left.width, (List.take_append_drop _ _).symm,
    List.length_take_of_le (by omega), ?_⟩
  rw [List.length_drop]
  omega

/-- Every bracketing of a row of repetitions can be carried out, and joins them. -/
theorem exists_joins (term : Term) (span : Span) : ∀ (shape : Bracketing) {events : List Event}
    {below parts trailing : List Node},
    (Tree.ofEvents events).roots = below ++ (parts ++ trailing) → parts.length = shape.width →
    (∀ part ∈ parts, part.repeats = true ∧ part.term = term) →
    ∃ n, (Tree.ofEvents (events ++ shape.reductions term span trailing.length)).roots =
        below ++ n :: trailing ∧
      Tree.Joins (events ++ shape.reductions term span trailing.length) term [n] parts := by
  intro shape
  induction shape with
  | part =>
    intro events below parts trailing hroots hwidth hparts
    obtain ⟨n, rfl⟩ := List.length_eq_one_iff.mp hwidth
    obtain ⟨hrepeats, hterm⟩ := hparts n List.mem_cons_self
    rw [reductions, List.append_nil]
    exact ⟨n, hroots, .part hrepeats hterm .nil⟩
  | join left right ihleft ihright =>
    intro events below parts trailing hroots hwidth hparts
    obtain ⟨ls, rs, rfl, hls, hrs⟩ := exists_append_of_width hwidth
    -- the right row comes first, and its node trails the left row then
    have hright : (Tree.ofEvents events).roots = (below ++ ls) ++ (rs ++ trailing) := by
      rw [hroots]
      simp
    obtain ⟨r, hr, hjoinr⟩ :=
      ihright hright hrs fun part hpart => hparts part (List.mem_append_right _ hpart)
    rw [List.append_assoc] at hr
    obtain ⟨l, hl, hjoinl⟩ :=
      ihleft hr hls fun part hpart => hparts part (List.mem_append_left _ hpart)
    have hpair : (Tree.ofEvents _).roots = below ++ ([l, r] ++ trailing) := hl
    have hcount : (pairing term span trailing.length).children = [l, r].length := rfl
    obtain ⟨n, hn, hreduced⟩ := Tree.exists_reducedTo_concat hpair hcount rfl
    rw [reductions, ← List.append_assoc, ← List.append_assoc]
    refine ⟨n, hn, ?_⟩
    have hrow := (hjoinl.append (hjoinr.more _)).more [.reduce (pairing term span trailing.length)]
    rw [← List.append_nil (ls ++ rs)]
    exact .group hreduced rfl rfl (List.cons_ne_nil _ _) hrow .nil

end Bracketing

/-- In the tree of any list of events, no reduced node has a child that is a repetition of its own
term. Every reduction makes a node, and the children of the node are the items that the reduction
takes, in order, where a repetition of its term gives way to its own children. So what comes of
joining repetitions of a term by reductions to it that are not flagged has the children of the parts
in a row, however the parts are grouped; and every bracketing of a row of roots can be carried
out. -/
theorem Tree.flat_ofEvents (events : List Event) :
    (∀ n ∈ (ofEvents events).nodes.toList, n.isToken = false →
      (∀ c ∈ n.children, ¬ (c.repeats = true ∧ c.term = n.term)) ∧
        ∃ e items, ReducedTo events e items n) ∧
    (∀ (before : List Event) (e : ReduceEvent) (after : List Event),
      events = before ++ .reduce e :: after → ∃ n,
        (ofEvents events).nodes.toList[(TreeBuilder.empty.follow before).nodes.size]? = some n ∧
        ReducedTo events e ((TreeBuilder.empty.follow before).taken e.children e.hoisted) n) ∧
    (∀ (e : ReduceEvent) (items : List Node) (n : Node), ReducedTo events e items n →
      n.isToken = false ∧ n.term = e.term ∧ n.children = items.flatMap fun item =>
        if item.repeats = true ∧ item.term = n.term then item.children else [item]) ∧
    (∀ (term : Term) (parts : List Node) (n : Node), Joins events term [n] parts →
      n.children = parts.flatMap Node.children) ∧
    ∀ (shape : Bracketing) (term : Term) (span : Span) (below parts trailing : List Node),
      (ofEvents events).roots = below ++ (parts ++ trailing) → parts.length = shape.width →
      (∀ part ∈ parts, part.repeats = true ∧ part.term = term) →
      ∃ n, (ofEvents (events ++ shape.reductions term span trailing.length)).roots =
          below ++ n :: trailing ∧ n.children = parts.flatMap Node.children := by
  have hjoined : ∀ {events : List Event} {term : Term} {parts : List Node} {n : Node},
      Joins events term [n] parts → n.children = parts.flatMap Node.children := by
    intro events term parts n h
    rw [← h.children_eq.2, List.flatMap_singleton]
  refine ⟨fun n hn htoken => ⟨?_, exists_reducedTo events n hn htoken⟩, fun before e after h => ?_,
    fun e items n h => ?_, fun term parts n => hjoined,
    fun shape term span below parts trailing hroots hwidth hparts => ?_⟩
  · have hempty : TreeBuilder.empty.Flattened := by
      intro m hm
      cases hm
    exact (hempty.follow TreeBuilder.numbered_empty events n hn).children htoken
  · subst h
    have hnode := node_of_reduce before e after
    exact ⟨_, hnode, before, after, rfl, rfl, hnode⟩
  · obtain ⟨htoken, hterm, hchildren, -⟩ := h.node
    exact ⟨htoken, hterm, hchildren⟩
  · obtain ⟨n, hn, hjoins⟩ := shape.exists_joins term span hroots hwidth hparts
    exact ⟨n, hn, hjoined hjoins⟩

/-- The events of three repetitions of the term 10, with two tokens each. -/
def threePairs : List Event :=
  let token : Event := .shift { term := 3, span := ⟨0, 1⟩ }
  let pair : List Event :=
    [token, token, .reduce { term := 10, span := ⟨0, 1⟩, children := 2, repeats := true }]
  pair ++ pair ++ pair

/-- Three repetitions of two tokens have one row of children, joined from the left or from the
right. The last reduction from the left takes the repetition 9 that the first one made. -/
theorem Tree.flat_ofEvents_threePairs :
    let left := threePairs ++ (Bracketing.join (.join .part .part) .part).reductions 10 ⟨0, 1⟩ 0
    let right := threePairs ++ (Bracketing.join .part (.join .part .part)).reductions 10 ⟨0, 1⟩ 0
    (∃ n, (ofEvents left).roots = [n] ∧ n.children.map Node.id = [0, 1, 3, 4, 6, 7]) ∧
    (∃ n, (ofEvents right).roots = [n] ∧ n.children.map Node.id = [0, 1, 3, 4, 6, 7]) ∧
    ∃ e items n, ReducedTo left e items n ∧ items.map Node.id = [9, 8] ∧
      n.children.map Node.id = [0, 1, 3, 4, 6, 7] ∧
      ∀ c ∈ n.children, ¬ (c.repeats = true ∧ c.term = n.term) := by
  intro left right
  have hrepeats : ∀ part ∈ (ofEvents threePairs).roots, part.repeats = true ∧ part.term = 10 := by
    decide
  have hrow : (ofEvents threePairs).roots = [] ++ ((ofEvents threePairs).roots ++ []) := by simp
  have hchildren : ((ofEvents threePairs).roots.flatMap Node.children).map Node.id =
      [0, 1, 3, 4, 6, 7] := by decide
  obtain ⟨-, -, -, -, hshapes⟩ := flat_ofEvents threePairs
  obtain ⟨l, hl, hlchildren⟩ := hshapes (.join (.join .part .part) .part) 10 ⟨0, 1⟩ [] _ [] hrow
    (by decide) hrepeats
  obtain ⟨r, hr, hrchildren⟩ := hshapes (.join .part (.join .part .part)) 10 ⟨0, 1⟩ [] _ [] hrow
    (by decide) hrepeats
  obtain ⟨hflat, hmade, hnodes, -, -⟩ := flat_ofEvents left
  obtain ⟨n, hn, hreduced⟩ := hmade (threePairs ++ [.reduce (Bracketing.pairing 10 ⟨0, 1⟩ 1)])
    (Bracketing.pairing 10 ⟨0, 1⟩ 0) [] rfl
  obtain ⟨htoken, hterm, hnode⟩ := hnodes _ _ _ hreduced
  refine ⟨⟨l, hl, hlchildren ▸ hchildren⟩, ⟨r, hr, hrchildren ▸ hchildren⟩, _, _, n, hreduced,
    by decide, ?_, (hflat n (List.mem_of_getElem? hn) htoken).1⟩
  rw [hnode, hterm]
  decide

end LRMachine
