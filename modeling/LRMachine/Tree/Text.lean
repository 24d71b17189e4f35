import LRMachine.Tree

/-!
# Trees as text

`Tree.text` is a tree on one line, `Name[child child]`, in which a node of an untagged term gives
way to its children. `Tree.frontier` lists the terms of the leaf tokens from left to right.
-/

namespace LRMachine

namespace Node

/-- The text of a tagged node over the texts of its children. -/
def bracketed (name : String) : List String → String
  | [] => name
  | inner => name ++ "[" ++ " ".intercalate inner ++ "]"

mutual

/-- The texts that a node gives to the node above: one if it is tagged. -/
def texts (names : List String) : Node → List String
  | ⟨_, term, _, children, _, _, _⟩ =>
    if term.isTagged then [bracketed (term.display names) (forestTexts names children)]
    else forestTexts names children

/-- The texts of a forest. -/
def forestTexts (names : List String) : List Node → List String
  | [] => []
  | node :: rest => node.texts names ++ forestTexts names rest

end

theorem texts_of_isTagged {node : Node} (h : node.term.isTagged = true) (names : List String) :
    node.texts names = [bracketed (node.term.display names) (forestTexts names node.children)] := by
  cases node
  exact if_pos h

theorem texts_of_not_isTagged {node : Node} (h : node.term.isTagged = false)
    (names : List String) : node.texts names = forestTexts names node.children := by
  cases node
  exact if_neg (Bool.eq_false_iff.mp h)

theorem forestTexts_append (names : List String) (a b : List Node) :
    forestTexts names (a ++ b) = forestTexts names a ++ forestTexts names b := by
  induction a with
  | nil => rfl
  | cons node rest ih => simp only [List.cons_append, forestTexts, ih, List.append_assoc]

theorem forestTexts_singleton (names : List String) (node : Node) :
    forestTexts names [node] = node.texts names := by
  rw [forestTexts, forestTexts, List.append_nil]

theorem forestTexts_eq_nil {names : List String} {nodes : List Node}
    (h : ∀ n ∈ nodes, n.texts names = []) : forestTexts names nodes = [] := by
  induction nodes with
  | nil => rfl
  | cons node rest ih =>
    rw [forestTexts, h node List.mem_cons_self, ih fun n hn => h n (List.mem_cons_of_mem _ hn)]
    rfl

mutual

/-- The terms of the tokens without children. -/
def leaves : Node → List Term
  | ⟨_, term, _, children, isToken, _, _⟩ =>
    if isToken && children.isEmpty then [term] else forestLeaves children

/-- The terms of the tokens without children in a forest. -/
def forestLeaves : List Node → List Term
  | [] => []
  | node :: rest => node.leaves ++ forestLeaves rest

end

end Node

namespace Tree

/-- The tree on one line. -/
def text (t : Tree) (names : List String) : String :=
  " ".intercalate (Node.forestTexts names t.roots)

/-- The terms of the leaf tokens, from left to right. -/
def frontier (t : Tree) : List Term := Node.forestLeaves t.roots

/-- No node was made. -/
def isEmpty (t : Tree) : Bool := t.nodes.isEmpty

end Tree

end LRMachine
