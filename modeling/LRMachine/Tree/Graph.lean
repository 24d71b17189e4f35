import LRMachine.Text.Escaped
import LRMachine.Tree

/-!
# Trees as graphs

`Graph.ofTree` walks a tree with a list of the nodes still to visit, which gives the nodes in the
order from the top and from left to right, and for every node the edges to its children, the last
child first. `Graph.dot` writes the graph in the DOT language.
-/

namespace LRMachine

/-- The nodes and edges of a tree. -/
structure Graph where
  nodes : List Node
  edges : List (Node × Node)

namespace Graph

/-- The edges from a node to its children, the last child first. -/
def edgesOf (node : Node) : List (Node × Node) := node.children.reverse.map (node, ·)

/-- Visits the nodes of a list and everything under them. -/
def walk : List Node → Graph
  | [] => ⟨[], []⟩
  | node :: rest =>
    let graph := walk (node.children ++ rest)
    ⟨node :: graph.nodes, edgesOf node ++ graph.edges⟩
termination_by todo => Node.sizes todo
decreasing_by
  simp only [Node.sizes_append, Node.sizes, Node.size_eq]
  omega

/-- The graph of a tree. -/
def ofTree (t : Tree) : Graph := walk t.roots

/-- The name of a node in the graph. -/
def nodeName (node : Node) : String := "N" ++ toString node.id

/-- The label of a node: its term and its span. -/
def label (names : List String) (node : Node) : String :=
  Text.escape (node.term.display names ++ " " ++ toString node.span.start ++ ".." ++
    toString node.span.stop)

/-- The statement of a node. -/
def nodeLine (names : List String) (node : Node) : String :=
  "    " ++ nodeName node ++ "[label=\"" ++ label names node ++ "\"];\n"

/-- The statement of an edge. -/
def edgeLine (edge : Node × Node) : String :=
  "    " ++ nodeName edge.1 ++ " -> " ++ nodeName edge.2 ++ "[label=\"\"];\n"

/-- The graph in the DOT language: all nodes, then all edges. -/
def dot (g : Graph) (names : List String) : String :=
  "digraph tree \x7b\n" ++ String.join (g.nodes.map (nodeLine names)) ++
    String.join (g.edges.map edgeLine) ++ "\x7d\n"

end Graph

/-- The tree in the DOT language. -/
def Tree.dot (t : Tree) (names : List String) : String := (Graph.ofTree t).dot names

end LRMachine
