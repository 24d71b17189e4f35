import LRMachine.Text.Decimal
import LRMachine.Tree.Text

/-!
# Reading a tree's text back

The tagged forest of a tree is what is left of it when every node of an untagged term gives way to
its children. The text of a tree shows this forest and nothing else (`Tree.toList_text`). Where the
names of the tagged terms are different, are not empty and have no blank and no bracket, it shows
all of it, since a line can be read back from left to right (`TaggedTree.readsBack`). So two trees
have the same text if and only if they have the same tagged forest (`Tree.text_eq_text_iff`). The
names that terms have where a grammar gives none are such names (`Term.distinct_nil`).
-/

namespace LRMachine

/-- A term that shows in the text of a tree. -/
abbrev TaggedTerm := { t : Term // t.isTagged = true }

/-- An ordered tree of tagged terms. -/
inductive TaggedTree where
  | node (term : TaggedTerm) (children : List TaggedTree)

namespace TaggedTree

/-- Induction over forests: what holds of the empty forest, and of a forest if it holds of what is
below its first node and of the trees behind that node, holds of every forest. -/
theorem forest_induction {motive : List TaggedTree → Prop} (nil : motive [])
    (cons : ∀ term children rest, motive children → motive rest →
      motive (node term children :: rest)) : ∀ forest, motive forest
  | [] => nil
  | node term children :: rest =>
    cons term children rest (forest_induction nil cons children) (forest_induction nil cons rest)

mutual

/-- The text of a tree of tagged terms. -/
def text (names : List String) : TaggedTree → String
  | node term children => Node.bracketed (term.val.display names) (texts names children)

/-- The texts of the trees of a forest. -/
def texts (names : List String) : List TaggedTree → List String
  | [] => []
  | tree :: rest => tree.text names :: texts names rest

end

theorem texts_append (names : List String) (a b : List TaggedTree) :
    texts names (a ++ b) = texts names a ++ texts names b := by
  induction a with
  | nil => rfl
  | cons tree rest ih => rw [List.cons_append, texts, texts, ih, List.cons_append]

end TaggedTree

namespace Node

mutual

/-- The tagged trees that a node gives to the node above: one if it is tagged. -/
def tagged : Node → List TaggedTree
  | ⟨_, term, _, children, _, _, _⟩ =>
    if h : term.isTagged = true then [.node ⟨term, h⟩ (forestTagged children)]
    else forestTagged children

/-- The tagged trees of a forest. -/
def forestTagged : List Node → List TaggedTree
  | [] => []
  | node :: rest => node.tagged ++ forestTagged rest

end

mutual

theorem texts_eq_texts_tagged (names : List String) (n : Node) :
    n.texts names = TaggedTree.texts names n.tagged := by
  obtain ⟨id, term, span, children, isToken, skipped, repeats⟩ := n
  have below := forestTexts_eq_texts_tagged names children
  by_cases h : term.isTagged = true
  · rw [Node.texts, Node.tagged, if_pos h, dif_pos h, below]
    rfl
  · rw [Node.texts, Node.tagged, if_neg h, dif_neg h, below]

theorem forestTexts_eq_texts_tagged (names : List String) (nodes : List Node) :
    forestTexts names nodes = TaggedTree.texts names (forestTagged nodes) := by
  match nodes with
  | [] => rfl
  | n :: rest =>
    rw [forestTexts, forestTagged, TaggedTree.texts_append, texts_eq_texts_tagged names n,
      forestTexts_eq_texts_tagged names rest]

end

end Node

/-- What the text of a tree can be read back from: the tagged terms have names of their own, none
is empty, and none has a character that the text puts between names. -/
structure Term.Distinct (names : List String) : Prop where
  injective : ∀ a b : Term, a.isTagged = true → b.isTagged = true →
    a.display names = b.display names → a = b
  ne_empty : ∀ a : Term, a.isTagged = true → a.display names ≠ ""
  plain : ∀ a : Term, a.isTagged = true →
    ∀ c ∈ (a.display names).toList, c ≠ ' ' ∧ c ≠ '[' ∧ c ≠ ']'

namespace TaggedTree

/-- The characters of a term's name. -/
def nameChars (names : List String) (term : TaggedTerm) : List Char :=
  (term.val.display names).toList

/-- The characters of a forest on one line. -/
def line (names : List String) (forest : List TaggedTree) : List Char :=
  (" ".intercalate (texts names forest)).toList

/-- What follows the name of a node. -/
def bracketChars (names : List String) : List TaggedTree → List Char
  | [] => []
  | inner => '[' :: (line names inner ++ [']'])

/-- What follows the first tree of a forest. -/
def restChars (names : List String) : List TaggedTree → List Char
  | [] => []
  | rest => ' ' :: line names rest

theorem line_nil (names : List String) : line names [] = [] := by
  simp [line, texts]

theorem toList_text (names : List String) (term : TaggedTerm) (children : List TaggedTree) :
    ((node term children).text names).toList =
      nameChars names term ++ bracketChars names children := by
  cases children with
  | nil => simp [text, texts, Node.bracketed, nameChars, bracketChars]
  | cons tree rest =>
    simp [text, texts, Node.bracketed, nameChars, bracketChars, line]

theorem line_cons (names : List String) (term : TaggedTerm) (children rest : List TaggedTree) :
    line names (node term children :: rest) =
      nameChars names term ++ (bracketChars names children ++ restChars names rest) := by
  rw [← List.append_assoc, ← toList_text, line, texts]
  cases rest with
  | nil => simp [texts, restChars]
  | cons tree rest =>
    simp [texts, restChars, line]

/-! ## Reading a line -/

/-- The first character, if there is one, is among the given ones. -/
def Stops (stops : List Char) (left : List Char) : Prop := ∀ c ∈ left.head?, c ∈ stops

theorem stops_cons {stops : List Char} {c : Char} {left : List Char} (hc : c ∈ stops) :
    Stops stops (c :: left) := by
  intro d hd
  rwa [Option.mem_some_iff.mp hd] at hc

theorem Stops.mem {stops : List Char} {c : Char} {left : List Char} (h : Stops stops (c :: left)) :
    c ∈ stops :=
  h c rfl

theorem Stops.weaken {few many left : List Char} (h : Stops few left) (sub : few ⊆ many) :
    Stops many left :=
  fun c hc => sub (h c hc)

theorem takeWhile_append_of_stops {stops a x : List Char} (ha : ∀ c ∈ a, c ∉ stops)
    (hx : Stops stops x) : (a ++ x).takeWhile (fun c => decide (c ∉ stops)) = a := by
  rw [List.takeWhile_append_of_pos fun c hc => decide_eq_true (ha c hc)]
  cases x with
  | nil => exact List.append_nil a
  | cons c rest =>
    have hc : c ∈ stops := hx c rfl
    rw [List.takeWhile_cons_of_neg (by simpa using hc), List.append_nil]

/-- Where it is known which characters stop a name, the name can be cut off. -/
theorem eq_of_append_eq_append {stops a b x y : List Char} (ha : ∀ c ∈ a, c ∉ stops)
    (hb : ∀ c ∈ b, c ∉ stops) (hx : Stops stops x) (hy : Stops stops y) (h : a ++ x = b ++ y) :
    a = b ∧ x = y := by
  have hab : a = b := by
    rw [← takeWhile_append_of_stops ha hx, h, takeWhile_append_of_stops hb hy]
  subst hab
  exact ⟨rfl, List.append_cancel_left h⟩

variable {names : List String}

/-- The characters that the text puts between names. -/
def marks : List Char := [' ', '[', ']']

theorem not_mem_marks (h : Term.Distinct names) (term : TaggedTerm) :
    ∀ c ∈ nameChars names term, c ∉ marks := by
  intro c hc
  have := h.plain term.val term.property c hc
  simpa [marks] using this

theorem nameChars_ne_nil (h : Term.Distinct names) (term : TaggedTerm) :
    nameChars names term ≠ [] := by
  intro e
  exact h.ne_empty term.val term.property (String.toList_eq_nil_iff.mp e)

theorem nameChars_injective (h : Term.Distinct names) {a b : TaggedTerm}
    (e : nameChars names a = nameChars names b) : a = b :=
  Subtype.ext (h.injective a.val b.val a.property b.property (String.toList_inj.mp e))

theorem line_cons_append_ne (h : Term.Distinct names) {stops x : List Char} (sub : stops ⊆ marks)
    (hx : Stops stops x) (tree : TaggedTree) (rest : List TaggedTree) (left : List Char) :
    line names (tree :: rest) ++ left ≠ x := by
  intro e
  obtain ⟨term, children⟩ := tree
  obtain ⟨c, cs, hc⟩ := List.exists_cons_of_ne_nil (nameChars_ne_nil h term)
  have clean : c ∉ marks := not_mem_marks h term c (by rw [hc]; exact List.mem_cons_self)
  have first : c ∈ x.head? := by
    rw [← e, line_cons, hc]
    rfl
  exact clean (sub (hx c first))

/-- Where the line of a forest is closed, the forest can be read off. -/
def ReadsBack (names : List String) (forest : List TaggedTree) : Prop :=
  ∀ ⦃other : List TaggedTree⦄ ⦃x y : List Char⦄, Stops [']'] x → Stops [']'] y →
    line names forest ++ x = line names other ++ y → forest = other ∧ x = y

/-- What is below a node can be read off from what follows its name. -/
theorem ReadsBack.bracketChars {inner other : List TaggedTree} {x y : List Char}
    (h : ReadsBack names inner) (hx : Stops [' ', ']'] x) (hy : Stops [' ', ']'] y)
    (e : bracketChars names inner ++ x = bracketChars names other ++ y) :
    inner = other ∧ x = y := by
  match inner, other with
  | [], [] => exact ⟨rfl, e⟩
  | [], tree :: rest =>
    have opens : x = '[' :: _ := e
    subst opens
    exact absurd hx.mem (by simp)
  | tree :: rest, [] =>
    have opens : y = '[' :: _ := e.symm
    subst opens
    exact absurd hy.mem (by simp)
  | tree :: rest, tree' :: rest' =>
    simp only [TaggedTree.bracketChars, List.cons_append, List.append_assoc, List.nil_append,
      List.cons.injEq, true_and] at e
    obtain ⟨same, left⟩ := h (stops_cons (List.mem_singleton_self _))
      (stops_cons (List.mem_singleton_self _)) e
    exact ⟨same, (List.cons.inj left).2⟩

/-- What is behind the first tree can be read off from what follows it. -/
theorem ReadsBack.restChars {rest other : List TaggedTree} {x y : List Char}
    (h : ReadsBack names rest) (hx : Stops [']'] x) (hy : Stops [']'] y)
    (e : restChars names rest ++ x = restChars names other ++ y) : rest = other ∧ x = y := by
  match rest, other with
  | [], [] => exact ⟨rfl, e⟩
  | [], tree :: rest =>
    have goesOn : x = ' ' :: _ := e
    subst goesOn
    exact absurd hx.mem (by simp)
  | tree :: rest, [] =>
    have goesOn : y = ' ' :: _ := e.symm
    subst goesOn
    exact absurd hy.mem (by simp)
  | tree :: rest, tree' :: rest' =>
    exact h hx hy (List.cons.inj e).2

theorem stops_restChars_append (names : List String) (rest : List TaggedTree) {x : List Char}
    (hx : Stops [']'] x) : Stops [' ', ']'] (TaggedTree.restChars names rest ++ x) := by
  cases rest with
  | nil => exact hx.weaken (by simp)
  | cons tree rest => exact stops_cons (by simp)

theorem stops_bracketChars_append (inner : List TaggedTree) {x : List Char}
    (hx : Stops [' ', ']'] x) : Stops marks (TaggedTree.bracketChars names inner ++ x) := by
  cases inner with
  | nil => exact hx.weaken (by simp [marks])
  | cons tree rest => exact stops_cons (by simp [marks])

/-- Every forest can be read off: first the name of its first node, then what is below the node,
then what is behind it. -/
theorem readsBack (h : Term.Distinct names) (forest : List TaggedTree) :
    ReadsBack names forest := by
  -- the other forest and both rests vary: below a node, the rest begins with the closing bracket
  induction forest using forest_induction with
  | nil =>
    intro other x y hx hy e
    match other with
    | [] => exact ⟨rfl, by simpa [line_nil] using e⟩
    | tree :: rest =>
      rw [line_nil, List.nil_append] at e
      exact absurd e.symm (line_cons_append_ne h (by simp [marks]) hx tree rest y)
  | cons term children rest below behind =>
    intro other x y hx hy e
    match other with
    | [] =>
      rw [line_nil, List.nil_append] at e
      exact absurd e (line_cons_append_ne h (by simp [marks]) hy _ _ _)
    | node term' children' :: rest' =>
      have hrest := stops_restChars_append names rest hx
      have hrest' := stops_restChars_append names rest' hy
      rw [line_cons, line_cons, List.append_assoc, List.append_assoc, List.append_assoc,
        List.append_assoc] at e
      obtain ⟨sameName, e⟩ := eq_of_append_eq_append (not_mem_marks h term)
        (not_mem_marks h term') (stops_bracketChars_append children hrest)
        (stops_bracketChars_append children' hrest') e
      obtain ⟨sameChildren, e⟩ := below.bracketChars hrest hrest' e
      obtain ⟨sameRest, e⟩ := behind.restChars hx hy e
      rw [nameChars_injective h sameName, sameChildren, sameRest]
      exact ⟨rfl, e⟩

theorem line_injective (h : Term.Distinct names) {a b : List TaggedTree}
    (e : line names a = line names b) : a = b := by
  have none : Stops [']'] [] := fun c hc => nomatch hc
  exact (readsBack h a none none (congrArg (· ++ []) e)).1

end TaggedTree

/-! ## Default names -/

namespace Term

theorem toList_display_nil {t : Term} (h : t.isTagged = true) (ne : t ≠ err) :
    (t.display []).toList = '#' :: Nat.toDigits 10 t.toNat := by
  have notEof : t ≠ eof := by
    intro e
    rw [e] at h
    exact absurd h (by decide)
  rw [display, List.getElem?_nil, name, if_neg notEof, if_neg ne]
  simp

theorem display_nil_err : (err.display []).toList = ['E', 'r', 'r'] := rfl

theorem distinct_nil : Distinct [] where
  injective a b ha hb e := by
    have e := congrArg String.toList e
    -- the name of the error term has letters, and that of any other term its digits
    by_cases ea : a = err <;> by_cases eb : b = err
    · rw [ea, eb]
    · rw [ea, display_nil_err, toList_display_nil hb eb] at e
      cases e
    · rw [eb, display_nil_err, toList_display_nil ha ea] at e
      cases e
    · rw [toList_display_nil ha ea, toList_display_nil hb eb] at e
      have digits := (List.cons.inj e).2
      apply UInt16.toNat_inj.mp
      rw [← Text.ofDigits_toDigits a.toNat, digits, Text.ofDigits_toDigits]
  ne_empty a ha e := by
    by_cases ea : a = err
    · rw [ea] at e
      exact absurd e (by decide)
    · have empty := toList_display_nil ha ea
      rw [e] at empty
      cases empty
  plain a ha c hc := by
    by_cases ea : a = err
    · rw [ea, display_nil_err] at hc
      simp only [List.mem_cons, List.not_mem_nil, or_false] at hc
      obtain rfl | rfl | rfl := hc <;> decide
    · rw [toList_display_nil ha ea] at hc
      obtain rfl | digit := List.mem_cons.mp hc
      · decide
      · have := Nat.isDigit_of_mem_toDigits (by omega) (by omega) digit
        refine ⟨?_, ?_, ?_⟩ <;> rintro rfl <;> simp at this

end Term

namespace Tree

/-- The tagged forest of a tree. -/
def tagged (t : Tree) : List TaggedTree := Node.forestTagged t.roots

/-- The text of a tree shows its tagged forest. -/
theorem toList_text (t : Tree) (names : List String) :
    (t.text names).toList = TaggedTree.line names t.tagged := by
  rw [Tree.text, Node.forestTexts_eq_texts_tagged]
  rfl

/-- Where the tagged terms have names that can be told apart, the text of a tree says neither more
nor less than its tagged forest. -/
theorem text_eq_text_iff {names : List String} (h : Term.Distinct names) (t u : Tree) :
    t.text names = u.text names ↔ t.tagged = u.tagged := by
  constructor
  · intro e
    apply TaggedTree.line_injective h
    rw [← toList_text, ← toList_text, e]
  · intro e
    apply String.toList_inj.mp
    rw [toList_text, toList_text, e]

/-- A sequence that a node of an untagged term holds together, and the same sequence with an empty
node of such a term in its middle, have the same text. -/
theorem text_eq_text_iff_spliced :
    Term.Distinct [] ∧
      (ofEvents [.shift { term := 3, span := ⟨0, 1⟩ }, .shift { term := 5, span := ⟨1, 2⟩ },
        .reduce { term := 2, span := ⟨0, 2⟩, children := 2 },
        .reduce { term := 7, span := ⟨0, 2⟩, children := 1 }]).text [] =
      (ofEvents [.shift { term := 3, span := ⟨0, 1⟩ }, .reduce { term := 4, span := ⟨1, 1⟩ },
        .shift { term := 5, span := ⟨1, 2⟩ },
        .reduce { term := 7, span := ⟨0, 2⟩, children := 3 }]).text [] :=
  ⟨Term.distinct_nil, (text_eq_text_iff Term.distinct_nil _ _).mpr rfl⟩

end Tree

end LRMachine
