import Mathlib.Data.List.Flatten
import Mathlib.Data.List.Nodup
import LRMachine.Proofs.TreeSpans

/-!
# Trees as arenas

The nodes of a tree are kept in the order of their making, and each names its children by their
numbers (`Tree.arena`). Whatever counts the events give, the numbers lead from the roots to a
forest: a child is older than its parent, so that looking children up comes to an end, and every
number is come to at most once. The nodes that are not come to are those that a reduction has
spliced away (`Tree.isForest_ofEvents`).
-/

namespace LRMachine

/-! ## Arenas -/

/-- A node as an arena keeps it, with the numbers of its children. -/
structure Record where
  term : Term
  span : Span
  children : List Nat
  isToken : Bool
  skipped : Bool
  repeats : Bool
deriving DecidableEq, Repr

/-- Nodes under their numbers, and the numbers of the roots. -/
structure Arena where
  records : List Record
  roots : List Nat
deriving DecidableEq, Repr

namespace Arena

/-- The node of a number, whose children are looked up in turn, down to a depth. There is none if a
number has no record or the depth does not suffice. -/
def nodeAt (a : Arena) : Nat → Nat → Option Node
  | 0, _ => none
  | depth + 1, id => do
    let record ← a.records[id]?
    let children ← record.children.mapM (a.nodeAt depth)
    some ⟨id, record.term, record.span, children, record.isToken, record.skipped, record.repeats⟩

/-- The nodes of the roots. -/
def forest (a : Arena) : Option (List Node) := a.roots.mapM (a.nodeAt a.records.length)

/-- Takes the first number of a list and puts those of its children in its place, until none is
left, and gives the numbers that it took. There are none if a number has no record or the steps do
not suffice. -/
def walk (a : Arena) : Nat → List Nat → Option (List Nat)
  | _, [] => some []
  | 0, _ :: _ => none
  | steps + 1, id :: rest => do
    let record ← a.records[id]?
    let later ← a.walk steps (record.children ++ rest)
    some (id :: later)

end Arena

namespace Node

/-- The record of a node. -/
def record (n : Node) : Record :=
  ⟨n.term, n.span, n.children.map Node.id, n.isToken, n.skipped, n.repeats⟩

mutual

/-- The nodes of a tree, each in front of those under it. -/
def preorder : Node → List Node
  | ⟨id, term, span, children, isToken, skipped, repeats⟩ =>
    ⟨id, term, span, children, isToken, skipped, repeats⟩ :: forestPreorder children

/-- The nodes of a forest. -/
def forestPreorder : List Node → List Node
  | [] => []
  | node :: rest => node.preorder ++ forestPreorder rest

end

theorem preorder_eq (n : Node) : n.preorder = n :: forestPreorder n.children := by
  cases n
  rfl

theorem forestPreorder_eq_flatMap (nodes : List Node) :
    forestPreorder nodes = nodes.flatMap preorder := by
  induction nodes with
  | nil => rfl
  | cons node rest ih => rw [forestPreorder, List.flatMap_cons, ih]

theorem forestPreorder_append (a b : List Node) :
    forestPreorder (a ++ b) = forestPreorder a ++ forestPreorder b := by
  simp only [forestPreorder_eq_flatMap, List.flatMap_append]

theorem forestPreorder_singleton (n : Node) : forestPreorder [n] = n.preorder := by
  rw [forestPreorder, forestPreorder, List.append_nil]

theorem forestPreorder_perm {a b : List Node} (h : a.Perm b) :
    (forestPreorder a).Perm (forestPreorder b) := by
  simp only [forestPreorder_eq_flatMap]
  exact h.flatMap_right preorder

end Node

namespace Tree

/-- A tree as an arena. -/
def arena (t : Tree) : Arena := ⟨t.nodes.toList.map Node.record, t.roots.map Node.id⟩

/-- The numbers that are come to from the roots, each as often as it is come to. -/
def reached (t : Tree) : List Nat := (Node.forestPreorder t.roots).map Node.id

/-- The arena of a tree is a forest: looking up the children of its roots comes to an end and gives
the roots of the tree, and comes to no number twice. Whether a recursion over the children does that
or a walk with a list of what is left to visit, the number of records bounds its depth or steps. -/
structure IsForest (t : Tree) : Prop where
  child_lt : ∀ (i : Nat) (record : Record), t.arena.records[i]? = some record →
    ∀ child ∈ record.children, child < i
  root_lt : ∀ root ∈ t.arena.roots, root < t.arena.records.length
  forest_eq : t.arena.forest = some t.roots
  walk_eq : t.arena.walk t.arena.records.length t.arena.roots = some t.reached
  reached_nodup : t.reached.Nodup

end Tree

namespace TreeBuilder

open scoped List

variable {b b' : TreeBuilder}

/-! ## Numbers of nodes -/

/-- The pending nodes and the children of all nodes are kept under their numbers, and a child has a
smaller number than its parent. -/
structure Numbered (b : TreeBuilder) : Prop where
  pending : ∀ n ∈ b.pending, b.Keeps n
  id_eq : ∀ (i : Nat) (n : Node), b.nodes.toList[i]? = some n → n.id = i
  children : ∀ n ∈ b.nodes.toList, ∀ c ∈ n.children, c.id < n.id ∧ b.Keeps c

theorem Keeps.mem {n : Node} (h : b.Keeps n) : n ∈ b.nodes.toList := List.mem_of_getElem? h

theorem Keeps.id_lt {n : Node} (h : b.Keeps n) : n.id < b.nodes.size := by
  rw [← Array.length_toList]
  exact (List.getElem?_eq_some_iff.mp h).1

theorem numbered_empty : empty.Numbered where
  pending n hn := by cases hn
  id_eq i n hn := by cases hn
  children n hn := by cases hn

theorem Numbered.push (h : b.Numbered) (new : Node) (hid : new.id = b.nodes.size)
    (hnodes : b'.nodes.toList = b.nodes.toList ++ [new]) (hchildren : ∀ c ∈ new.children, b.Keeps c)
    (hpending : ∀ n ∈ b'.pending, n = new ∨ n ∈ b.pending) : b'.Numbered := by
  obtain ⟨hnew, hold⟩ := keeps_append new hid hnodes
  refine ⟨fun n hn => ?_, fun i n hn => ?_, fun n hn c hc => ?_⟩
  · rcases hpending n hn with rfl | hn
    · exact hnew
    · exact hold n (h.pending n hn)
  · rw [hnodes, List.getElem?_append] at hn
    split at hn
    · exact h.id_eq i n hn
    · rename_i hle
      obtain ⟨hlt, rfl⟩ := List.getElem?_eq_some_iff.mp hn
      rw [Array.length_toList] at hle hlt
      simp only [List.length_singleton] at hlt
      simp only [List.getElem_singleton, hid]
      omega
  · rw [hnodes] at hn
    rcases List.mem_append.mp hn with hn | hn
    · obtain ⟨hlt, hkept⟩ := h.children n hn c hc
      exact ⟨hlt, hold c hkept⟩
    · obtain rfl := List.mem_singleton.mp hn
      exact ⟨hid ▸ (hchildren c hc).id_lt, hold c (hchildren c hc)⟩

theorem Numbered.add (h : b.Numbered) (event : Event) : (b.add event).Numbered := by
  cases event with
  | shift e =>
    refine h.push (b.shiftNode e) rfl (b.nodes_add_shift e)
      (fun c hc => h.pending c (mem_pending_of_mem_taken hc)) fun n hn => ?_
    rw [pending_add_shift] at hn
    exact (List.mem_cons.mp hn).imp_right List.mem_of_mem_drop
  | reduce e =>
    refine h.push (b.reduceNode e) rfl (b.nodes_add_reduce e) (fun c hc => ?_)
      fun n hn => ?_
    · obtain ⟨m, hm, hc⟩ := exists_of_mem_flatten hc
      have hkept := h.pending m (mem_pending_of_mem_taken hm)
      rcases hc with rfl | hc
      · exact hkept
      · exact (h.children m hkept.mem c hc).2
    · rw [pending_add_reduce] at hn
      rcases List.mem_append.mp hn with hn | hn
      · exact .inr (List.mem_of_mem_take hn)
      · exact (List.mem_cons.mp hn).imp_right List.mem_of_mem_drop
  | diagnostic d => exact ⟨h.pending, h.id_eq, h.children⟩

theorem Numbered.follow (h : b.Numbered) (events : List Event) : (b.follow events).Numbered :=
  follow_induction (fun _ event h => h.add event) h events

/-! ## Looking nodes up -/

theorem mapM_map_eq_some {α β : Type} {f : β → Option α} {g : α → β} :
    ∀ {xs : List α}, (∀ x ∈ xs, f (g x) = some x) → (xs.map g).mapM f = some xs := by
  intro xs
  induction xs with
  | nil => exact fun _ => rfl
  | cons x xs ih =>
    intro h
    obtain ⟨hx, hxs⟩ := List.forall_mem_cons.mp h
    rw [List.map_cons, List.mapM_cons, hx, ih hxs]
    rfl

theorem length_records (b : TreeBuilder) : b.finish.arena.records.length = b.nodes.size := by
  rw [finish, Tree.arena, List.length_map, Array.length_toList]

theorem Keeps.getElem?_records {n : Node} (h : b.Keeps n) :
    b.finish.arena.records[n.id]? = some n.record := by
  show (b.nodes.toList.map Node.record)[n.id]? = _
  rw [List.getElem?_map, h]
  rfl

/-- A node is found again under its number, at any depth that is greater. -/
theorem Numbered.nodeAt_eq (h : b.Numbered) :
    ∀ {depth : Nat} {n : Node}, b.Keeps n → n.id < depth →
      b.finish.arena.nodeAt depth n.id = some n := by
  intro depth
  induction depth with
  | zero => intro n _ hlt; cases hlt
  | succ depth ih =>
    intro n hkept hlt
    have hchildren : n.record.children.mapM (b.finish.arena.nodeAt depth) = some n.children := by
      refine mapM_map_eq_some fun c hc => ?_
      obtain ⟨hc, hkept⟩ := h.children n hkept.mem c hc
      exact ih hkept (by omega)
    rw [Arena.nodeAt, hkept.getElem?_records]
    simp only [Option.bind_eq_bind, Option.bind_some, hchildren]
    cases n
    rfl

/-- A walk comes to the nodes under those that it starts from, a step for each. -/
theorem Numbered.walk_eq (h : b.Numbered) :
    ∀ {steps : Nat} {todo : List Node}, (∀ n ∈ todo, b.Keeps n) →
      (Node.forestPreorder todo).length ≤ steps →
      b.finish.arena.walk steps (todo.map Node.id) =
        some ((Node.forestPreorder todo).map Node.id) := by
  intro steps
  induction steps with
  | zero =>
    intro todo hkept hlength
    cases todo with
    | nil => rfl
    | cons n rest => simp [Node.forestPreorder, Node.preorder_eq] at hlength
  | succ steps ih =>
    intro todo hkept hlength
    cases todo with
    | nil => rfl
    | cons n rest =>
      obtain ⟨hn, hrest⟩ := List.forall_mem_cons.mp hkept
      have hunder : Node.forestPreorder (n :: rest) =
          n :: Node.forestPreorder (n.children ++ rest) := by
        rw [Node.forestPreorder, Node.preorder_eq, Node.forestPreorder_append, List.cons_append]
      have htodo : ∀ c ∈ n.children ++ rest, b.Keeps c := fun c hc =>
        (List.mem_append.mp hc).elim (fun hc => (h.children n hn.mem c hc).2) (hrest c)
      rw [hunder, List.length_cons] at hlength
      have hlater := ih htodo (by omega)
      rw [List.map_append] at hlater
      rw [hunder, List.map_cons, List.map_cons, Arena.walk, hn.getElem?_records]
      simp only [Option.bind_eq_bind, Option.bind_some, Node.record, hlater]

/-! ## Nodes that are spliced away -/

/-- The nodes that an event splices away: the repetitions of its term that a reduction takes. -/
def splicedBy (b : TreeBuilder) : Event → List Node
  | .reduce e => (b.taken e.children e.hoisted).filter (dissolves e.term)
  | .shift _ | .diagnostic _ => []

/-- The nodes that a list of events splices away, each as often as that happens. -/
def spliced (b : TreeBuilder) : List Event → List Node
  | [] => []
  | event :: rest => b.splicedBy event ++ (b.add event).spliced rest

/-- Flattening loses the repetitions that dissolve, and nothing else. -/
theorem forestPreorder_flatten (term : Term) (nodes : List Node) :
    Node.forestPreorder (flatten term nodes) ++ nodes.filter (dissolves term) ~
      Node.forestPreorder nodes := by
  induction nodes with
  | nil => exact .refl _
  | cons node rest ih =>
    have hflatten : flatten term (node :: rest) =
        (if dissolves term node then node.children else [node]) ++ flatten term rest := rfl
    rw [hflatten, Node.forestPreorder_append, Node.forestPreorder, List.append_assoc]
    by_cases hd : dissolves term node = true
    · rw [if_pos hd, List.filter_cons_of_pos hd, Node.preorder_eq]
      calc Node.forestPreorder node.children ++
            (Node.forestPreorder (flatten term rest) ++ node :: rest.filter (dissolves term))
          ~ Node.forestPreorder node.children ++
            node :: (Node.forestPreorder (flatten term rest) ++ rest.filter (dissolves term)) :=
            List.perm_middle.append_left _
        _ ~ Node.forestPreorder node.children ++ node :: Node.forestPreorder rest :=
            (ih.cons node).append_left _
        _ ~ node :: (Node.forestPreorder node.children ++ Node.forestPreorder rest) :=
            List.perm_middle
    · rw [if_neg hd, List.filter_cons_of_neg hd, Node.forestPreorder_singleton]
      exact ih.append_left _

theorem taken_append_perm (b : TreeBuilder) (count keep : Nat) :
    b.taken count keep ++ (b.pending.take keep ++ b.pending.drop (keep + count)) ~ b.pending := by
  have hsplit : b.pending.take keep ++ ((b.pending.drop keep).take count ++
      b.pending.drop (keep + count)) = b.pending := by
    rw [← List.drop_drop, List.take_append_drop, List.take_append_drop]
  calc b.taken count keep ++ (b.pending.take keep ++ b.pending.drop (keep + count))
      ~ (b.pending.drop keep).take count ++
          (b.pending.take keep ++ b.pending.drop (keep + count)) :=
        (List.reverse_perm _).append_right _
    _ ~ b.pending.take keep ++ ((b.pending.drop keep).take count ++
          b.pending.drop (keep + count)) := List.perm_append_comm_assoc _ _ _
    _ ~ b.pending := .of_eq hsplit

/-- A node in the place of what is taken comes to the pending nodes, if all that was taken is under
it but for what is lost. -/
theorem forestPreorder_replace (b : TreeBuilder) {count keep : Nat} {node : Node}
    {lost : List Node} (h : Node.forestPreorder node.children ++ lost ~
      Node.forestPreorder (b.taken count keep)) :
    Node.forestPreorder (b.replace count keep node).pending ++ lost ~
      node :: Node.forestPreorder b.pending := by
  let stays := b.pending.take keep ++ b.pending.drop (keep + count)
  have hpending : (b.replace count keep node).pending ~ node :: stays := List.perm_middle
  calc Node.forestPreorder (b.replace count keep node).pending ++ lost
      ~ node.preorder ++ Node.forestPreorder stays ++ lost :=
        (Node.forestPreorder_perm hpending).append_right lost
    _ ~ node :: (Node.forestPreorder node.children ++ lost ++ Node.forestPreorder stays) := by
        rw [Node.preorder_eq, List.cons_append, List.cons_append, List.append_assoc,
          List.append_assoc]
        exact (List.perm_append_comm.append_left _).cons node
    _ ~ node :: (Node.forestPreorder (b.taken count keep) ++ Node.forestPreorder stays) :=
        (h.append_right _).cons node
    _ ~ node :: Node.forestPreorder b.pending := by
        rw [← Node.forestPreorder_append]
        exact (Node.forestPreorder_perm (b.taken_append_perm count keep)).cons node

/-- Every node is once under the pending nodes or among the lost ones. -/
def Accounts (b : TreeBuilder) (lost : List Node) : Prop :=
  Node.forestPreorder b.pending ++ lost ~ b.nodes.toList

theorem Accounts.replace {lost more : List Node} (h : b.Accounts lost) {count keep : Nat}
    {node : Node} (hnode : Node.forestPreorder node.children ++ more ~
      Node.forestPreorder (b.taken count keep)) :
    (b.replace count keep node).Accounts (lost ++ more) := by
  calc Node.forestPreorder (b.replace count keep node).pending ++ (lost ++ more)
      ~ Node.forestPreorder (b.replace count keep node).pending ++ more ++ lost := by
        rw [List.append_assoc]
        exact List.perm_append_comm.append_left _
    _ ~ node :: Node.forestPreorder b.pending ++ lost :=
        (b.forestPreorder_replace hnode).append_right lost
    _ ~ node :: b.nodes.toList := h.cons node
    _ ~ b.nodes.toList ++ [node] := (List.perm_append_singleton _ _).symm
    _ ~ (b.replace count keep node).nodes.toList := .of_eq Array.toList_push.symm

theorem Accounts.add {lost : List Node} (h : b.Accounts lost) (event : Event) :
    (b.add event).Accounts (lost ++ b.splicedBy event) := by
  cases event with
  | shift e => exact h.replace (.of_eq (List.append_nil _))
  | reduce e => exact h.replace (forestPreorder_flatten e.term _)
  | diagnostic d =>
    rw [splicedBy, List.append_nil]
    exact h

theorem Accounts.follow {lost : List Node} (h : b.Accounts lost) (events : List Event) :
    (b.follow events).Accounts (lost ++ b.spliced events) := by
  induction events generalizing b lost with
  | nil =>
    rw [spliced, List.append_nil]
    exact h
  | cons event rest ih =>
    rw [spliced, ← List.append_assoc]
    exact ih (h.add event)

/-- A reduction among the events splices a node away: it takes the node, which is a repetition of
its term. -/
def SplicesAway (b : TreeBuilder) (events : List Event) (n : Node) : Prop :=
  ∃ (before : List Event) (e : ReduceEvent) (after : List Event),
    events = before ++ .reduce e :: after ∧
      n ∈ (b.follow before).taken e.children e.hoisted ∧
      n.repeats = true ∧ n.term = e.term

theorem mem_spliced_iff {n : Node} {events : List Event} :
    n ∈ b.spliced events ↔ b.SplicesAway events n := by
  induction events generalizing b with
  | nil => simp [spliced, SplicesAway]
  | cons event rest ih =>
    have hfirst : n ∈ b.splicedBy event ↔ ∃ e, event = .reduce e ∧
        n ∈ b.taken e.children e.hoisted ∧ n.repeats = true ∧ n.term = e.term := by
      cases event with
      | reduce e => simp [splicedBy, dissolves]
      | shift e => simp [splicedBy]
      | diagnostic d => simp [splicedBy]
    rw [spliced, List.mem_append, hfirst, ih]
    constructor
    · rintro (⟨e, rfl, hn⟩ | ⟨before, e, after, rfl, hn⟩)
      · exact ⟨[], e, rest, rfl, hn⟩
      · exact ⟨event :: before, e, after, rfl, hn⟩
    · rintro ⟨before, e, after, hsplit, hn⟩
      cases before with
      | nil =>
        obtain ⟨rfl, rfl⟩ := List.cons.inj hsplit
        exact .inl ⟨e, rfl, hn⟩
      | cons first before =>
        obtain ⟨rfl, rfl⟩ := List.cons.inj hsplit
        exact .inr ⟨before, e, after, rfl, hn⟩

/-! ## The arena of any list of events -/

theorem Numbered.map_id_nodes (h : b.Numbered) :
    b.nodes.toList.map Node.id = List.range b.nodes.size := by
  refine List.ext_getElem? fun i => ?_
  rw [List.getElem?_map]
  cases hn : b.nodes.toList[i]? with
  | none =>
    have hle := List.getElem?_eq_none_iff.mp hn
    rw [Array.length_toList] at hle
    rw [Option.map_none, List.getElem?_eq_none (by rwa [List.length_range])]
  | some n =>
    have hlt := (List.getElem?_eq_some_iff.mp hn).1
    rw [Array.length_toList] at hlt
    rw [Option.map_some, h.id_eq i n hn, List.getElem?_range hlt]

/-- The numbers that are come to and those of the lost nodes are all numbers, each once. -/
theorem Accounts.reached_perm {lost : List Node} (h : b.Accounts lost) (hb : b.Numbered) :
    b.finish.reached ++ lost.map Node.id ~ List.range b.nodes.size := by
  have hroots : Node.forestPreorder b.finish.roots ~ Node.forestPreorder b.pending :=
    Node.forestPreorder_perm (List.reverse_perm _)
  calc b.finish.reached ++ lost.map Node.id
      ~ (Node.forestPreorder b.pending).map Node.id ++ lost.map Node.id :=
        (hroots.map Node.id).append_right _
    _ ~ (Node.forestPreorder b.pending ++ lost).map Node.id := .of_eq (List.map_append).symm
    _ ~ b.nodes.toList.map Node.id := h.map Node.id
    _ ~ List.range b.nodes.size := .of_eq hb.map_id_nodes

theorem Accounts.isForest {lost : List Node} (haccounts : b.Accounts lost) (h : b.Numbered) :
    b.finish.IsForest where
  child_lt i record hrecord child hchild := by
    obtain ⟨n, hn, rfl⟩ : ∃ n, b.nodes.toList[i]? = some n ∧ n.record = record := by
      simpa [finish, Tree.arena] using hrecord
    obtain ⟨c, hc, rfl⟩ := List.mem_map.mp hchild
    rw [← h.id_eq i n hn]
    exact (h.children n (List.mem_of_getElem? hn) c hc).1
  root_lt root hroot := by
    obtain ⟨n, hn, rfl⟩ := List.mem_map.mp hroot
    rw [length_records]
    exact (h.pending n (List.mem_reverse.mp hn)).id_lt
  forest_eq := by
    refine mapM_map_eq_some fun n hn => ?_
    have hkept := h.pending n (List.mem_reverse.mp hn)
    exact h.nodeAt_eq hkept (by rw [length_records]; exact hkept.id_lt)
  walk_eq := by
    have hlength := (haccounts.reached_perm h).length_eq
    rw [List.length_append, List.length_range, Tree.reached, List.length_map] at hlength
    refine h.walk_eq (fun n hn => h.pending n (List.mem_reverse.mp hn)) ?_
    rw [length_records, ← hlength]
    exact Nat.le_add_right _ _
  reached_nodup := by
    have hnodup := (haccounts.reached_perm h).nodup_iff.mpr List.nodup_range
    exact (List.nodup_append.mp hnodup).1

end TreeBuilder

/-- Whatever the events are, the arena of their tree is a forest. The numbers that are not come to
from its roots are those of the nodes that reductions splice away, each of which happens once. -/
theorem Tree.isForest_ofEvents (events : List Event) :
    (ofEvents events).IsForest ∧
      (∀ i < (ofEvents events).arena.records.length, i ∉ (ofEvents events).reached ↔
        ∃ n : Node, TreeBuilder.empty.SplicesAway events n ∧ n.id = i) ∧
      (ofEvents events).arena.records.length =
        (ofEvents events).reached.length + (TreeBuilder.empty.spliced events).length := by
  have hnumbered := TreeBuilder.numbered_empty.follow events
  have hempty : TreeBuilder.empty.Accounts [] := .refl _
  have haccounts : (TreeBuilder.empty.follow events).Accounts (TreeBuilder.empty.spliced events) :=
    hempty.follow events
  -- the numbers that are come to and those of the lost nodes are all numbers, each once
  have hperm := haccounts.reached_perm hnumbered
  have hsize : (ofEvents events).arena.records.length =
      (TreeBuilder.empty.follow events).nodes.size :=
    (TreeBuilder.empty.follow events).length_records
  obtain ⟨-, -, hdisjoint⟩ := List.nodup_append.mp (hperm.nodup_iff.mpr List.nodup_range)
  refine ⟨haccounts.isForest hnumbered, fun i hi => ?_, ?_⟩
  · have hmem : i ∈ (ofEvents events).reached ∨
        i ∈ (TreeBuilder.empty.spliced events).map Node.id :=
      List.mem_append.mp (hperm.mem_iff.mpr (List.mem_range.mpr (hsize ▸ hi)))
    have hspliced : i ∈ (TreeBuilder.empty.spliced events).map Node.id ↔
        ∃ n : Node, TreeBuilder.empty.SplicesAway events n ∧ n.id = i := by
      simp only [List.mem_map, TreeBuilder.mem_spliced_iff]
    rw [← hspliced]
    exact ⟨hmem.resolve_left, fun hlost hfound => hdisjoint i hfound i hlost rfl⟩
  · have hlength := hperm.length_eq
    rw [List.length_append, List.length_map, List.length_range] at hlength
    rw [hsize]
    exact hlength.symm

end LRMachine
