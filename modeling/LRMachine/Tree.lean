import LRMachine.Event

/-!
# Trees

`TreeBuilder.add` is the consumer of events: it keeps a list of pending nodes, lets a shift append
one, and lets a reduction replace some of them by one. A repetition that was folded step by step is
flattened on the way: a child that is a repetition of the reduced term gives way to its own
children. What is pending at the end are the roots of the tree.
-/

namespace LRMachine

/-- A node of a tree; the builder numbers nodes as it makes them. -/
structure Node where
  id : Nat
  term : Term
  span : Span
  children : List Node
  isToken : Bool
  /-- The node belongs to a skip expression. -/
  skipped : Bool
  /-- The node is a repetition, which dissolves in a parent of the same term. -/
  repeats : Bool

/-- A tree. There are several roots where skipped content lies around the top node. -/
structure Tree where
  /-- Every node that was made, by id. -/
  nodes : Array Node
  roots : List Node
  errors : List Diagnostic

/-- A tree in the making. -/
structure TreeBuilder where
  nodes : Array Node
  /-- The nodes without a parent, newest first. -/
  pending : List Node
  errors : List Diagnostic

namespace Node

mutual

/-- The number of nodes of a tree. -/
def size : Node → Nat
  | ⟨_, _, _, children, _, _, _⟩ => sizes children + 1

/-- The number of nodes of a forest. -/
def sizes : List Node → Nat
  | [] => 0
  | node :: rest => node.size + sizes rest

end

theorem sizes_append (a b : List Node) : sizes (a ++ b) = sizes a + sizes b := by
  induction a with
  | nil => simp [sizes]
  | cons node rest ih => simp only [List.cons_append, sizes, ih]; omega

theorem size_eq (node : Node) : node.size = sizes node.children + 1 := by
  cases node; rfl

end Node

namespace TreeBuilder

/-- The builder before the first event. -/
def empty : TreeBuilder := ⟨#[], [], []⟩

/-- The node dissolves in a parent of the term. -/
def dissolves (term : Term) (node : Node) : Bool := node.repeats && node.term == term

/-- The children of a reduction of the term to the given items. -/
def flatten (term : Term) (taken : List Node) : List Node :=
  taken.flatMap fun node => if dissolves term node then node.children else [node]

/-- The items that an event takes: `count` of them, in front of the last `keep`. Fewer are there if
the list ends. -/
def taken (b : TreeBuilder) (count keep : Nat) : List Node :=
  ((b.pending.drop keep).take count).reverse

/-- Puts a node in the place of the items that an event takes. -/
def replace (b : TreeBuilder) (count keep : Nat) (node : Node) : TreeBuilder :=
  { b with
    nodes := b.nodes.push node
    pending := b.pending.take keep ++ node :: b.pending.drop (keep + count) }

/-- The node of a shift. -/
def shiftNode (b : TreeBuilder) (e : ShiftEvent) : Node where
  id := b.nodes.size
  term := e.term
  span := e.span
  children := b.taken e.children 0
  isToken := true
  skipped := e.skipped
  repeats := false

/-- The node of a reduction. It is a repetition if it folds one or takes one in. -/
def reduceNode (b : TreeBuilder) (e : ReduceEvent) : Node where
  id := b.nodes.size
  term := e.term
  span := e.span
  children := flatten e.term (b.taken e.children e.hoisted)
  isToken := false
  skipped := e.skipped
  repeats := e.repeats || (b.taken e.children e.hoisted).any (dissolves e.term)

/-- Follows an event. -/
def add (b : TreeBuilder) : Event → TreeBuilder
  | .shift e => b.replace e.children 0 (b.shiftNode e)
  | .reduce e => b.replace e.children e.hoisted (b.reduceNode e)
  | .diagnostic d => { b with errors := d :: b.errors }

/-- The tree of what is pending. -/
def finish (b : TreeBuilder) : Tree := ⟨b.nodes, b.pending.reverse, b.errors.reverse⟩

end TreeBuilder

/-- The tree that a list of events describes. -/
def Tree.ofEvents (events : List Event) : Tree :=
  (events.foldl TreeBuilder.add TreeBuilder.empty).finish

end LRMachine
