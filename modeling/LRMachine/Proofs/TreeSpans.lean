import LRMachine.Proofs.Correspondence

/-!
# Trees with ordered spans

In a well spanned tree (`Tree.WellSpanned`) the children of every node lie within it and in order,
and a reduced node ends where the content before it ended. A consumer builds such trees as long as
its pending nodes lie in order and the newest content divides them (`TreeBuilder.Laid`): what is not
trailing ends by the end of the content, and what trails begins there. A token that comes behind
everything keeps this, and so does a reduction that stands on the oldest node it takes
(`Laid.add_shift`, `Laid.add_reduce`).
-/

namespace LRMachine

/-! ## Trees with ordered spans -/

/-- One span lies in another. -/
def Span.Within (inner outer : Span) : Prop := outer.start ≤ inner.start ∧ inner.stop ≤ outer.stop

theorem Span.Within.trans {a b c : Span} (h : a.Within b) (h' : b.Within c) : a.Within c :=
  ⟨Nat.le_trans h'.1 h.1, Nat.le_trans h.2 h'.2⟩

namespace Node

/-- A node ends before or where another begins. -/
def Before (a b : Node) : Prop := a.span.stop ≤ b.span.start

/-- The children of a node lie within it and in order. -/
structure Encloses (n : Node) : Prop where
  start_le : n.span.start ≤ n.span.stop
  order : n.children.Pairwise Before
  within : ∀ c ∈ n.children, c.span.Within n.span

/-- A node and all nodes under it have a property. -/
inductive All (P : Node → Prop) : Node → Prop where
  | intro {n : Node} (here : P n) (below : ∀ c ∈ n.children, All P c) : All P n

variable {P Q : Node → Prop} {n : Node}

theorem All.here (h : n.All P) : P n := by
  cases h
  assumption

theorem All.children (h : n.All P) : ∀ c ∈ n.children, c.All P := by
  cases h
  assumption

theorem All.imp (hpq : ∀ n, P n → Q n) (h : n.All P) : n.All Q := by
  induction h with
  | intro here _ ih => exact ⟨hpq _ here, ih⟩

end Node

/-- The place where the content of a list of nodes ends: the end of its last token that is not
skipped. -/
def contentStop (nodes : List Node) : Nat :=
  ((nodes.filter fun n => n.isToken && !n.skipped).getLast?.map (·.span.stop)).getD 0

theorem contentStop_append_content {n : Node} (ht : n.isToken = true) (hs : n.skipped = false)
    (nodes : List Node) : contentStop (nodes ++ [n]) = n.span.stop := by
  simp [contentStop, List.filter_append, ht, hs]

theorem contentStop_append_other {n : Node} (h : n.isToken = false ∨ n.skipped = true)
    (nodes : List Node) : contentStop (nodes ++ [n]) = contentStop nodes := by
  have hnone : (n.isToken && !n.skipped) = false := by
    rcases h with h | h <;> simp [h]
  simp [contentStop, List.filter_append, hnone]

/-- In a list of nodes in the order of their making, every reduced node ends where the content that
was there ended. -/
def EndWithContent (nodes : List Node) : Prop :=
  ∀ i n, nodes[i]? = some n → n.isToken = false → n.span.stop = contentStop (nodes.take i)

theorem EndWithContent.append {nodes : List Node} (h : EndWithContent nodes) {n : Node}
    (hn : n.isToken = false → n.span.stop = contentStop nodes) : EndWithContent (nodes ++ [n]) := by
  intro i m hm htoken
  rcases Nat.lt_trichotomy i nodes.length with hlt | rfl | hgt
  · rw [List.getElem?_append_left hlt] at hm
    rw [List.take_append_of_le_length (Nat.le_of_lt hlt)]
    exact h i m hm htoken
  · obtain rfl : n = m := by simpa using hm
    rw [List.take_left]
    exact hn htoken
  · rw [List.getElem?_eq_none (by simp; omega)] at hm
    cases hm

namespace Tree

/-- The nodes that hang in a tree. -/
inductive Reaches (t : Tree) : Node → Prop where
  | root {n : Node} (h : n ∈ t.roots) : Reaches t n
  | child {n c : Node} (h : Reaches t n) (hc : c ∈ n.children) : Reaches t c

/-- The spans of a tree nest: the roots lie in order, and so do the children of every node in the
tree, within the node. Every reduced node that was ever made ends where the last token that is not
skipped and was made before it ends; the nodes in the tree are among those that were made. -/
structure WellSpanned (t : Tree) : Prop where
  roots : t.roots.Pairwise Node.Before
  encloses : ∀ n, t.Reaches n → n.Encloses
  reduced : EndWithContent t.nodes.toList
  recorded : ∀ n, t.Reaches n → t.nodes.toList[n.id]? = some n

theorem Reaches.all {t : Tree} {P : Node → Prop} (hroots : ∀ n ∈ t.roots, n.All P) {n : Node}
    (h : t.Reaches n) : n.All P := by
  induction h with
  | root h => exact hroots _ h
  | child _ hc ih => exact ih.children _ hc

end Tree

namespace TreeBuilder

/-- Every pending node and all nodes under it have a property. -/
def All (P : Node → Prop) (b : TreeBuilder) : Prop := ∀ n ∈ b.pending, n.All P

variable {b : TreeBuilder} {P : Node → Prop}

theorem exists_of_mem_flatten {term : Term} {nodes : List Node} {c : Node}
    (h : c ∈ flatten term nodes) : ∃ n ∈ nodes, c = n ∨ c ∈ n.children := by
  obtain ⟨n, hn, hc⟩ := List.mem_flatMap.mp h
  refine ⟨n, hn, ?_⟩
  split at hc
  · exact .inr hc
  · exact .inl (List.mem_singleton.mp hc)

theorem All.add_reduce (h : b.All P) {e : ReduceEvent} (hnew : P (b.reduceNode e)) :
    (b.add (.reduce e)).All P := by
  intro n hn
  rw [pending_add_reduce] at hn
  rcases List.mem_append.mp hn with hn | hn
  · exact h n (List.mem_of_mem_take hn)
  · rcases List.mem_cons.mp hn with rfl | hn
    · refine ⟨hnew, fun c hc => ?_⟩
      obtain ⟨m, hm, hc⟩ := exists_of_mem_flatten hc
      have hall := h m (mem_pending_of_mem_taken hm)
      rcases hc with rfl | hc
      · exact hall
      · exact hall.children c hc
    · exact h n (List.mem_of_mem_drop hn)

theorem All.add_shift (h : b.All P) {e : ShiftEvent} (hnew : P (b.shiftNode e)) :
    (b.add (.shift e)).All P := by
  intro n hn
  rw [pending_add_shift] at hn
  rcases List.mem_cons.mp hn with rfl | hn
  · exact ⟨hnew, fun c hc => h c (mem_pending_of_mem_taken hc)⟩
  · exact h n (List.mem_of_mem_drop hn)

/-- A builder keeps every node under its id. -/
def Keeps (b : TreeBuilder) (n : Node) : Prop := b.nodes.toList[n.id]? = some n

theorem nodes_add_shift (b : TreeBuilder) (e : ShiftEvent) :
    (b.add (.shift e)).nodes.toList = b.nodes.toList ++ [b.shiftNode e] := Array.toList_push

theorem nodes_add_reduce (b : TreeBuilder) (e : ReduceEvent) :
    (b.add (.reduce e)).nodes.toList = b.nodes.toList ++ [b.reduceNode e] := Array.toList_push

theorem keeps_append {b' : TreeBuilder} (new : Node) (hid : new.id = b.nodes.size)
    (hnodes : b'.nodes.toList = b.nodes.toList ++ [new]) :
    b'.Keeps new ∧ ∀ n, b.Keeps n → b'.Keeps n := by
  refine ⟨?_, fun n hn => ?_⟩
  · rw [Keeps, hnodes, hid, ← Array.length_toList, List.getElem?_concat_length]
  · rw [Keeps, hnodes, List.getElem?_append_left (List.getElem?_eq_some_iff.mp hn).1]
    exact hn

theorem all_keeps_ofLog : ∀ log : List Event, (ofLog log).All (ofLog log).Keeps := by
  intro log
  induction log with
  | nil => intro n hn; cases hn
  | cons event earlier ih =>
    show ((ofLog earlier).add event).All ((ofLog earlier).add event).Keeps
    cases event with
    | shift e =>
      obtain ⟨hnew, hold⟩ := keeps_append ((ofLog earlier).shiftNode e) rfl
        ((ofLog earlier).nodes_add_shift e)
      exact All.add_shift (fun n hn => (ih n hn).imp hold) hnew
    | reduce e =>
      obtain ⟨hnew, hold⟩ := keeps_append ((ofLog earlier).reduceNode e) rfl
        ((ofLog earlier).nodes_add_reduce e)
      exact All.add_reduce (fun n hn => (ih n hn).imp hold) hnew
    | diagnostic => exact ih

/-- Children that take the place of a repetition lie where it lay. -/
theorem flatten_inOrder (term : Term) {nodes : List Node} (horder : nodes.Pairwise Node.Before)
    (h : ∀ n ∈ nodes, n.Encloses) : (flatten term nodes).Pairwise Node.Before ∧
      ∀ c ∈ flatten term nodes, ∃ n ∈ nodes, c.span.Within n.span := by
  have hwithin : ∀ n ∈ nodes, ∀ c ∈ (if dissolves term n then n.children else [n]),
      c.span.Within n.span := by
    intro n hn c hc
    split at hc
    · exact (h n hn).within c hc
    · rw [List.mem_singleton.mp hc]
      exact ⟨Nat.le_refl _, Nat.le_refl _⟩
  refine ⟨List.pairwise_flatMap.mpr ⟨fun n hn => ?_, ?_⟩, fun c hc => ?_⟩
  · split
    · exact (h n hn).order
    · exact List.pairwise_singleton _ _
  · refine horder.imp_of_mem fun ha hb hab c hc d hd => ?_
    have hleft := (hwithin _ ha c hc).2
    have hright := (hwithin _ hb d hd).1
    exact Nat.le_trans hleft (Nat.le_trans hab hright)
  · obtain ⟨n, hn, hc⟩ := List.mem_flatMap.mp hc
    exact ⟨n, hn, hwithin n hn c hc⟩

/-! ## Consumers with ordered spans -/

/-- The pending nodes lie in order, and the end of the content divides them: what is not trailing
ends before it, what trails begins behind it. -/
structure Laid (b : TreeBuilder) (contentEnd position : Nat) : Prop where
  order : b.pending.Pairwise fun newer older => older.Before newer
  encloses : b.All Node.Encloses
  stop_le : ∀ n ∈ b.pending, n.span.stop ≤ position
  before : ∀ n ∈ b.pending.dropWhile (·.skipped), n.span.stop ≤ contentEnd
  after : ∀ n ∈ trailingSkipped b.pending, contentEnd ≤ n.span.start
  contentEnd_le : contentEnd ≤ position
  contentEnd_eq : contentEnd = contentStop b.nodes.toList
  reduced : EndWithContent b.nodes.toList

theorem laid_empty : empty.Laid 0 0 where
  order := .nil
  encloses n hn := by cases hn
  stop_le n hn := by cases hn
  before n hn := by cases hn
  after n hn := by cases hn
  contentEnd_le := Nat.le_refl _
  contentEnd_eq := rfl
  reduced i n hn := by cases hn

variable {contentEnd position : Nat}

theorem Laid.add_diagnostic (h : b.Laid contentEnd position) (d : Diagnostic) :
    (b.add (.diagnostic d)).Laid contentEnd position :=
  ⟨h.order, h.encloses, h.stop_le, h.before, h.after, h.contentEnd_le, h.contentEnd_eq, h.reduced⟩

theorem Laid.add_shift (h : b.Laid contentEnd position) {e : ShiftEvent} (hc : e.children = 0)
    (hle : position ≤ e.span.start) (hspan : e.span.start ≤ e.span.stop) :
    (b.add (.shift e)).Laid (if e.skipped then contentEnd else e.span.stop) e.span.stop := by
  have hpending := b.pending_add_shift e
  have hchildren : (b.shiftNode e).children = [] := by
    show b.taken e.children 0 = []
    rw [hc, taken, List.take_zero, List.reverse_nil]
  rw [hc, List.drop_zero] at hpending
  have hstops : ∀ n ∈ b.pending, n.span.stop ≤ e.span.start :=
    fun n hn => Nat.le_trans (h.stop_le n hn) hle
  have hstop_le : ∀ n ∈ b.shiftNode e :: b.pending, n.span.stop ≤ e.span.stop := by
    intro n hn
    rcases List.mem_cons.mp hn with rfl | hn
    · exact Nat.le_refl _
    · exact Nat.le_trans (hstops n hn) hspan
  have hskipped : (b.shiftNode e).skipped = e.skipped := rfl
  have hcontent := h.contentEnd_le
  have hnodes := b.nodes_add_shift e
  have hreduced : EndWithContent (b.add (.shift e)).nodes.toList := by
    rw [hnodes]
    exact h.reduced.append fun htoken => by cases htoken
  have hencloses : (b.shiftNode e).Encloses := ⟨hspan, by simp [hchildren], by simp [hchildren]⟩
  have horder : (b.add (.shift e)).pending.Pairwise fun newer older => older.Before newer := by
    rw [hpending]
    exact h.order.cons hstops
  -- a skipped token trails the content, and any other one is its new end
  by_cases hs : e.skipped = true
  · rw [if_pos hs]
    refine ⟨horder, h.encloses.add_shift hencloses, hpending ▸ hstop_le, ?_, ?_, by omega, ?_,
      hreduced⟩
    · rw [hpending, List.dropWhile_cons_of_pos (hskipped.trans hs)]
      exact h.before
    · rw [hpending, trailingSkipped, List.takeWhile_cons_of_pos (hskipped.trans hs)]
      intro n hn
      rcases List.mem_cons.mp hn with rfl | hn
      · exact Nat.le_trans hcontent hle
      · exact h.after n hn
    · rw [hnodes, contentStop_append_other (.inr hs)]
      exact h.contentEnd_eq
  · rw [if_neg hs]
    refine ⟨horder, h.encloses.add_shift hencloses, hpending ▸ hstop_le, ?_, ?_, Nat.le_refl _, ?_,
      hreduced⟩
    · rw [hpending, List.dropWhile_cons_of_neg (by rw [hskipped]; exact hs)]
      exact hstop_le
    · rw [hpending, trailingSkipped, List.takeWhile_cons_of_neg (by rw [hskipped]; exact hs)]
      simp
    · rw [hnodes, contentStop_append_content rfl (hskipped.trans (by simpa using hs))]
      rfl

/-- In front of what trails, everything ends by the end of the content. -/
theorem Laid.stop_le_contentEnd (h : b.Laid contentEnd position) {front rest : List Node}
    (hsplit : b.pending = front ++ rest) (hfront : front = trailingSkipped b.pending) :
    ∀ n ∈ rest, n.span.stop ≤ contentEnd := by
  have hdivide : front ++ b.pending.dropWhile (·.skipped) = b.pending := by
    rw [hfront]
    exact List.takeWhile_append_dropWhile
  obtain rfl : b.pending.dropWhile (·.skipped) = rest :=
    List.append_cancel_left (hdivide.trans hsplit)
  exact h.before

/-- The place where a reduction stands lies between what is below and what is taken: at the oldest
node that is taken, or at the end of the content if none is. -/
theorem start_between {taken below : List Node} {start : Nat}
    (htaken : taken.Pairwise fun newer older => older.Before newer)
    (hcross : ∀ n ∈ taken, ∀ m ∈ below, m.Before n)
    (hencloses : ∀ n ∈ taken, n.span.start ≤ n.span.stop)
    (hstops : ∀ n ∈ taken ++ below, n.span.stop ≤ contentEnd)
    (hstart : ∀ n ∈ taken.getLast?, n.span.start = start)
    (hempty : taken = [] → start = contentEnd) :
    start ≤ contentEnd ∧ (∀ n ∈ taken, start ≤ n.span.start) ∧
      ∀ m ∈ below, m.span.stop ≤ start := by
  cases hlast : taken.getLast? with
  | none =>
    obtain rfl := List.getLast?_eq_none_iff.mp hlast
    obtain rfl := hempty rfl
    exact ⟨Nat.le_refl _, by simp, hstops⟩
  | some oldest =>
    obtain rfl := hstart oldest hlast
    obtain ⟨newer, rfl⟩ := List.getLast?_eq_some_iff.mp hlast
    have holdest : oldest ∈ newer ++ [oldest] := by simp
    have hspan := hencloses oldest holdest
    refine ⟨Nat.le_trans hspan (hstops oldest (by simp)), fun n hn => ?_, hcross oldest holdest⟩
    rcases List.mem_append.mp hn with hn | hn
    · have hbefore := (List.pairwise_append.mp htaken).2.2 n hn oldest (by simp)
      exact Nat.le_trans hspan hbefore
    · exact Nat.le_of_eq (by rw [List.mem_singleton.mp hn])

theorem encloses_reduceNode {e : ReduceEvent} {taken : List Node}
    (hchildren : b.taken e.children e.hoisted = taken.reverse)
    (horder : taken.Pairwise fun newer older => older.Before newer)
    (hencloses : ∀ n ∈ taken, n.Encloses) (hle : e.span.start ≤ e.span.stop)
    (hwithin : ∀ n ∈ taken, n.span.Within e.span) : (b.reduceNode e).Encloses := by
  have hflatten : (b.reduceNode e).children = flatten e.term taken.reverse :=
    congrArg (flatten e.term) hchildren
  obtain ⟨hflat, hplace⟩ := flatten_inOrder e.term (List.pairwise_reverse.mpr horder)
    fun n hn => hencloses n (List.mem_reverse.mp hn)
  refine ⟨hle, hflatten ▸ hflat, fun c hc => ?_⟩
  obtain ⟨n, hn, hc⟩ := hplace c (hflatten ▸ hc)
  exact hc.trans (hwithin n (List.mem_reverse.mp hn))

/-- A reduction that stands on the oldest node that it takes, or on the end of the content if it
takes none, spans what it takes. -/
theorem Laid.add_reduce (h : b.Laid contentEnd position) {e : ReduceEvent} {above : List Frame}
    {trailing taken below : List Node} (htakes : TakesPopped above b e trailing taken below)
    (htrailing : trailing = trailingSkipped b.pending) (hs : e.skipped = false)
    (hstart : ∀ n ∈ taken.getLast?, n.span.start = e.span.start)
    (hempty : taken = [] → e.span.start = contentEnd)
    (hmax : e.span.stop = max contentEnd e.span.start) :
    (b.add (.reduce e)).Laid contentEnd position := by
  have hpending := htakes.pending_after
  have hsplit := htakes.pending_eq
  have hskipped := htakes.trailing_skipped
  have hnodes := b.nodes_add_reduce e
  have hmem : ∀ n, n ∈ trailing ∨ n ∈ taken ∨ n ∈ below → n ∈ b.pending := by
    intro n hn
    rw [hsplit]
    simpa using hn
  have hencloses : ∀ n ∈ b.pending, n.Encloses := fun n hn => (h.encloses n hn).here
  -- the order of the pending nodes, taken apart where the reduction cuts them
  have horder := h.order
  rw [hsplit, List.pairwise_append, List.pairwise_append] at horder
  obtain ⟨htrail, ⟨htaken, hbelow, hcross⟩, houter⟩ := horder
  have hstops := h.stop_le_contentEnd hsplit htrailing
  obtain ⟨hle, hover, hunder⟩ := start_between htaken hcross
    (fun n hn => (hencloses n (hmem n (.inr (.inl hn)))).start_le) hstops hstart hempty
  have hstop : e.span.stop = contentEnd := by omega
  have hnode : (b.reduceNode e).Encloses := by
    refine encloses_reduceNode htakes.children_eq htaken
      (fun n hn => hencloses n (hmem n (.inr (.inl hn)))) (by omega)
      fun n hn => ⟨hover n hn, ?_⟩
    rw [hstop]
    exact hstops n (List.mem_append_left _ hn)
  refine ⟨?_, h.encloses.add_reduce hnode, ?_, ?_, ?_, h.contentEnd_le, ?_, ?_⟩
  · rw [hpending, List.pairwise_append, List.pairwise_cons]
    refine ⟨htrail, ⟨hunder, hbelow⟩, fun n hn m hm => ?_⟩
    rcases List.mem_cons.mp hm with rfl | hm
    · show e.span.stop ≤ n.span.start
      rw [hstop]
      exact h.after n (htrailing ▸ hn)
    · exact houter n hn m (List.mem_append_right _ hm)
  · intro n hn
    rw [hpending, List.mem_append, List.mem_cons] at hn
    rcases hn with hn | rfl | hn
    · exact h.stop_le n (hmem n (.inl hn))
    · show e.span.stop ≤ position
      rw [hstop]
      exact h.contentEnd_le
    · exact h.stop_le n (hmem n (.inr (.inr hn)))
  · rw [hpending, List.dropWhile_append_of_pos hskipped,
      List.dropWhile_cons_of_neg (by simp [reduceNode, hs])]
    intro n hn
    rcases List.mem_cons.mp hn with rfl | hn
    · exact Nat.le_of_eq hstop
    · exact hstops n (List.mem_append_right _ hn)
  · rw [hpending, trailingSkipped, List.takeWhile_append_of_pos hskipped,
      List.takeWhile_cons_of_neg (by simp [reduceNode, hs]), List.append_nil, htrailing]
    exact h.after
  · rw [hnodes, contentStop_append_other (.inl rfl)]
    exact h.contentEnd_eq
  · rw [hnodes]
    exact h.reduced.append fun _ => hstop.trans h.contentEnd_eq

end TreeBuilder

end LRMachine
