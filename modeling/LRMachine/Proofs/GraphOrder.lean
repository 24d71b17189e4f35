import LRMachine.Proofs.Arena
import LRMachine.Tree.Graph

/-!
# The order of a graph

The graph of a tree is found by a loop with a stack of what is left to visit. Its nodes come out in
the order of the recursion over the tree, each in front of those under it (`Graph.walk_eq`), and the
children that the edges lead to are, with the roots, all nodes again
(`Graph.targets_append_perm`). In the tree of a list of events every node has a number of its own,
so no node and no edge comes twice. There the loop may as well look the children up by their
numbers: it ends after a step for each node (`Arena.draw`, `Tree.draws_ofEvents`).
-/

namespace LRMachine

namespace Arena

/-- Takes the first number of a stack, notes the edges to its children, the last child first, and
puts the children on the stack in its place, until none is left. Gives the numbers that it took and
the edges; there are none if a number has no record or the steps do not suffice. -/
def draw (a : Arena) : Nat → List Nat → Option (List Nat × List (Nat × Nat))
  | _, [] => some ([], [])
  | 0, _ :: _ => none
  | steps + 1, id :: rest => do
    let record ← a.records[id]?
    let (ids, edges) ← a.draw steps (record.children ++ rest)
    some (id :: ids, record.children.reverse.map (id, ·) ++ edges)

end Arena

namespace Graph

open scoped List

/-- The numbers of the two nodes of an edge. -/
def edgeIds (edge : Node × Node) : Nat × Nat := (edge.1.id, edge.2.id)

theorem map_edgeIds_edgesOf (n : Node) :
    (edgesOf n).map edgeIds = (n.children.map Node.id).reverse.map (n.id, ·) := by
  rw [edgesOf, List.map_map, ← List.map_reverse, List.map_map]
  rfl

theorem map_snd_edgesOf (n : Node) : (edgesOf n).map Prod.snd = n.children.reverse := by
  rw [edgesOf, List.map_map]
  exact List.map_id _

/-! ## The walk -/

theorem forestPreorder_cons (n : Node) (rest : List Node) :
    Node.forestPreorder (n :: rest) = n :: Node.forestPreorder (n.children ++ rest) := by
  rw [Node.forestPreorder, Node.preorder_eq, Node.forestPreorder_append, List.cons_append]

theorem walk_eq (todo : List Node) :
    walk todo = ⟨Node.forestPreorder todo, (Node.forestPreorder todo).flatMap edgesOf⟩ := by
  induction todo using walk.induct with
  | case1 => rw [walk, Node.forestPreorder, List.flatMap_nil]
  | case2 n rest ih => rw [walk, ih, forestPreorder_cons, List.flatMap_cons]

/-- The edges lead to all nodes but those that the walk starts from. -/
theorem targets_append_perm (todo : List Node) :
    ((Node.forestPreorder todo).flatMap edgesOf).map Prod.snd ++ todo ~
      Node.forestPreorder todo := by
  induction todo using walk.induct with
  | case1 => exact .refl _
  | case2 n rest ih =>
    rw [forestPreorder_cons, List.flatMap_cons, List.map_append, map_snd_edgesOf]
    let later := ((Node.forestPreorder (n.children ++ rest)).flatMap edgesOf).map Prod.snd
    calc n.children.reverse ++ later ++ n :: rest
        ~ n :: (n.children.reverse ++ later ++ rest) := List.perm_middle
      _ ~ n :: (later ++ n.children.reverse ++ rest) :=
        (List.perm_append_comm.append_right rest).cons n
      _ ~ n :: (later ++ (n.children ++ rest)) := by
        rw [List.append_assoc]
        exact (((List.reverse_perm _).append_right rest).append_left later).cons n
      _ ~ n :: Node.forestPreorder (n.children ++ rest) := ih.cons n

theorem mem_edges_iff {nodes : List Node} {n c : Node} :
    (n, c) ∈ nodes.flatMap edgesOf ↔ n ∈ nodes ∧ c ∈ n.children := by
  simp only [edgesOf, List.mem_flatMap, List.mem_map, List.mem_reverse, Prod.mk.injEq]
  constructor
  · rintro ⟨m, hm, d, hd, rfl, rfl⟩
    exact ⟨hm, hd⟩
  · rintro ⟨hn, hc⟩
    exact ⟨n, hn, c, hc, rfl, rfl⟩

/-! ## What the walk comes to -/

theorem reaches_of_mem {t : Tree} (todo : List Node) :
    (∀ n ∈ todo, t.Reaches n) → ∀ n ∈ Node.forestPreorder todo, t.Reaches n := by
  induction todo using walk.induct with
  | case1 => exact fun h => h
  | case2 m rest ih =>
    intro h
    obtain ⟨hm, hrest⟩ := List.forall_mem_cons.mp h
    rw [forestPreorder_cons]
    refine List.forall_mem_cons.mpr ⟨hm, ih fun c hc => ?_⟩
    exact (List.mem_append.mp hc).elim (fun hc => hm.child hc) (hrest c)

/-- A walk from the roots comes to the nodes that hang in the tree. -/
theorem mem_forestPreorder_iff {t : Tree} {n : Node} :
    n ∈ Node.forestPreorder t.roots ↔ t.Reaches n := by
  refine ⟨reaches_of_mem t.roots (fun _ => .root) n, fun h => ?_⟩
  have hperm := targets_append_perm t.roots
  induction h with
  | root h => exact hperm.subset (List.mem_append_right _ h)
  | @child m c _ hc ih =>
    have hedge : (m, c) ∈ (Node.forestPreorder t.roots).flatMap edgesOf :=
      mem_edges_iff.mpr ⟨ih, hc⟩
    exact hperm.subset (List.mem_append_left _ (List.mem_map_of_mem hedge))

end Graph

namespace TreeBuilder

variable {b : TreeBuilder}

/-- Looking the children up by their numbers, the loop comes to the same nodes and edges. -/
theorem Numbered.draw_eq (h : b.Numbered) :
    ∀ {steps : Nat} {todo : List Node}, (∀ n ∈ todo, b.Keeps n) →
      (Node.forestPreorder todo).length ≤ steps →
      b.finish.arena.draw steps (todo.map Node.id) =
        some ((Graph.walk todo).nodes.map Node.id, (Graph.walk todo).edges.map Graph.edgeIds) := by
  intro steps
  induction steps with
  | zero =>
    intro todo _ hlength
    cases todo with
    | nil => simp [Arena.draw, Graph.walk]
    | cons n rest => simp [Graph.forestPreorder_cons] at hlength
  | succ steps ih =>
    intro todo hkept hlength
    cases todo with
    | nil => simp [Arena.draw, Graph.walk]
    | cons n rest =>
      obtain ⟨hn, hrest⟩ := List.forall_mem_cons.mp hkept
      have htodo : ∀ c ∈ n.children ++ rest, b.Keeps c := fun c hc =>
        (List.mem_append.mp hc).elim (fun hc => (h.children n hn.mem c hc).2) (hrest c)
      rw [Graph.forestPreorder_cons, List.length_cons] at hlength
      have hlater := ih htodo (by omega)
      rw [List.map_append] at hlater
      rw [List.map_cons, Arena.draw, hn.getElem?_records, Graph.walk, List.map_append,
        Graph.map_edgeIds_edgesOf]
      simp only [Option.bind_eq_bind, Option.bind_some, Node.record, hlater, List.map_cons]

theorem accounts_follow (events : List Event) :
    (empty.follow events).Accounts (empty.spliced events) := by
  have hempty : empty.Accounts [] := .refl _
  exact hempty.follow events

theorem Accounts.length_le {lost : List Node} (h : b.Accounts lost) (hb : b.Numbered) :
    (Node.forestPreorder b.finish.roots).length ≤ b.finish.arena.records.length := by
  have hlength := (h.reached_perm hb).length_eq
  rw [List.length_append, List.length_range, Tree.reached, List.length_map] at hlength
  rw [length_records]
  omega

end TreeBuilder

/-! ## The graph of any list of events -/

/-- The graph is that of a tree in the order from the top and from left to right: its nodes are
those of the tree in this order, each once, and its edges are those to the children of every node,
the last child first, each once. The loop over the numbers of the nodes comes to the same nodes and
edges, in no more steps than there are records. -/
structure Graph.Draws (g : Graph) (t : Tree) : Prop where
  nodes_eq : g.nodes = Node.forestPreorder t.roots
  mem_nodes_iff : ∀ n, n ∈ g.nodes ↔ t.Reaches n
  nodes_nodup : (g.nodes.map Node.id).Nodup
  edges_eq : g.edges = (Node.forestPreorder t.roots).flatMap fun n => n.children.reverse.map (n, ·)
  mem_edges_iff : ∀ n c, (n, c) ∈ g.edges ↔ t.Reaches n ∧ c ∈ n.children
  edges_nodup : (g.edges.map Graph.edgeIds).Nodup
  length_edges : g.edges.length + t.roots.length = g.nodes.length
  draw_eq : t.arena.draw t.arena.records.length t.arena.roots =
    some (g.nodes.map Node.id, g.edges.map Graph.edgeIds)

/-- Whatever the events are, the graph of their tree is drawn from the top and from left to right,
and nothing is drawn twice. -/
theorem Tree.draws_ofEvents (events : List Event) :
    (Graph.ofTree (ofEvents events)).Draws (ofEvents events) := by
  have hnumbered := TreeBuilder.numbered_empty.follow events
  have haccounts := TreeBuilder.accounts_follow events
  have hreached : (ofEvents events).reached.Nodup := (haccounts.isForest hnumbered).reached_nodup
  have hperm := Graph.targets_append_perm (ofEvents events).roots
  have hdraw := hnumbered.draw_eq (fun n hn => hnumbered.pending n (List.mem_reverse.mp hn))
    (haccounts.length_le hnumbered)
  have hwalk := Graph.walk_eq (ofEvents events).roots
  refine ⟨?_, fun n => ?_, ?_, ?_, fun n c => ?_, ?_, ?_, hdraw⟩ <;> rw [Graph.ofTree, hwalk]
  · exact Graph.mem_forestPreorder_iff
  · exact hreached
  · rfl
  · rw [← Graph.mem_forestPreorder_iff]
    exact Graph.mem_edges_iff
  · -- the children that the edges lead to are different already
    have htargets := (hperm.map Node.id).nodup_iff.mpr hreached
    rw [List.map_append, List.map_map] at htargets
    refine List.Nodup.of_map Prod.snd ?_
    rw [List.map_map]
    exact (List.nodup_append.mp htargets).1
  · have hcount := hperm.length_eq
    rwa [List.length_append, List.length_map] at hcount

end LRMachine
