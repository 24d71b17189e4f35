import Mathlib.Data.List.Chain
import LRMachine.Proofs.Invariants
import LRMachine.Proofs.Mounting

/-!
# Bounds on the levels of a parse

Entering a nested grammar has no limit of its own. The number of levels is bounded all the same,
because each level runs a grammar that is nested in the tables of the level around it
(`Nesting.length_add_height_le`), and the stack of each level stays within the limit of the options,
above the start state of its own tables (`Confined`). `withinBounds_of_visited` says this of every
parse between the calls of a user and of all points within a call.
-/

namespace LRMachine

/-! ## The height of tables -/

namespace Tables

mutual

/-- How deep grammars are nested in tables. -/
def height : Tables → Nat
  | ⟨_, nested, _⟩ => heights nested

/-- How deep grammars are nested in tables that nest the given ones. -/
def heights : List (Nested Tables) → Nat
  | [] => 0
  | ⟨_, tables, _, _⟩ :: rest => max (tables.height + 1) (heights rest)

end

theorem height_lt_heights {g : Nested Tables} :
    ∀ {nested : List (Nested Tables)}, g ∈ nested → g.tables.height < heights nested := by
  intro nested
  induction nested with
  | nil => intro hg; cases hg
  | cons first rest ih =>
    intro hg
    obtain ⟨name, tables, closing, placeholder⟩ := first
    unfold heights
    rcases List.mem_cons.mp hg with rfl | hg
    · exact Nat.le_max_left _ _
    · have hrest := ih hg
      omega

theorem height_lt_of_mem {t : Tables} {g : Nested Tables} (h : g ∈ t.nested) :
    g.tables.height < t.height := by
  obtain ⟨storage, nested, names⟩ := t
  show g.tables.height < heights nested
  exact height_lt_heights h

end Tables

/-- The grammars between the outermost tables and the innermost ones are no more than their heights
allow. -/
theorem Nesting.length_add_height_le {t u : Tables} {suspended : List Suspension}
    (h : Nesting t u suspended) : suspended.length + u.height ≤ t.height := by
  induction h with
  | outermost => exact Nat.le_of_eq (Nat.zero_add _)
  | inner host _ _ _ hg ih =>
    have hlt := Tables.height_lt_of_mem (List.mem_of_getElem? hg)
    rw [List.length_cons]
    omega

/-! ## Levels -/

/-- The tables of a level are those of a grammar that is nested in the tables of another one. -/
def Level.RegisteredIn (inner outer : Level) : Prop :=
  ∃ g ∈ outer.tables.nested, inner.tables = g.tables

/-- The stack of a level has a frame, has no more frames than the options allow, begins with the
start state, and has states of the level's tables only. -/
structure Level.WithinBounds (o : Options) (l : Level) : Prop where
  length_pos : 1 ≤ l.stack.states.length
  length_le : l.stack.states.length ≤ max 1 o.maxStackDepth
  head_eq : l.stack.states.head? = some l.tables.start
  state_lt : ∀ state ∈ l.stack.states, state.toNat < l.tables.stateCount

/-- The stack of a level stands on the start state and keeps the limit of the options. -/
structure Level.Confined (o : Options) (l : Level) : Prop where
  bottom_eq : l.stack.bottom.state = l.tables.start
  limit_eq : l.stack.limit = o.maxStackDepth
  length_le : l.stack.length ≤ max 1 o.maxStackDepth

theorem Level.Confined.withinBounds {o : Options} {l : Level} (h : l.Confined o)
    (hs : l.InTables) : l.WithinBounds o := by
  have hlength : l.stack.states.length = l.stack.length := by
    rw [Stack.states, List.length_map, List.length_reverse, Stack.length_frames]
  refine ⟨?_, hlength ▸ h.length_le, ?_, fun state hstate => ?_⟩
  · rw [hlength]
    exact Nat.le_add_left _ _
  · simp [Stack.states, Stack.frames, h.bottom_eq]
  · obtain ⟨f, hf, rfl⟩ := List.mem_map.mp hstate
    exact hs f (List.mem_reverse.mp hf)

namespace Parse

variable {t : Tables} {o : Options} {p : Parse}

/-- The levels of a parse, the innermost one first. -/
def levels (p : Parse) : List Level := p.active :: p.suspended.map (·.host)

/-- The levels of a parse over the tables `t` are within the bounds that `t` and the options give:
the outermost one runs `t`, each other one a grammar that is nested in the tables around it, and
there are no more nested grammars than `t` is high. -/
structure WithinBounds (t : Tables) (o : Options) (p : Parse) : Prop where
  outermost : p.levels.getLast?.map (·.tables) = some t
  registered : p.levels.IsChain Level.RegisteredIn
  nestDepth_le : p.nestDepth ≤ t.height
  levels : ∀ l ∈ p.levels, l.WithinBounds o

theorem levels_of_nesting {u : Tables} {suspended : List Suspension} (h : Nesting t u suspended) :
    ∀ l : Level, l.tables = u →
      (l :: suspended.map (·.host)).getLast?.map (·.tables) = some t ∧
      (l :: suspended.map (·.host)).IsChain Level.RegisteredIn ∧
      ∀ s ∈ suspended, s.host.InTables := by
  induction h with
  | outermost => exact fun l hl => ⟨congrArg some hl, .singleton l, by simp⟩
  | @inner s outer d i host inTables hd hi hg ih =>
    intro l hl
    obtain ⟨hlast, hchain, hall⟩ := ih s.host rfl
    refine ⟨?_, .cons_cons ⟨s.grammar, List.mem_of_getElem? hg, hl⟩ hchain,
      List.forall_mem_cons.mpr ⟨inTables, hall⟩⟩
    rw [List.map_cons, List.getLast?_cons_cons]
    exact hlast

/-! ## Confined stacks -/

/-- The stacks of all levels are confined to the options of the parse. -/
structure Confined (o : Options) (p : Parse) : Prop where
  options_eq : p.options = o
  active : p.active.Confined o
  suspended : ∀ s ∈ p.suspended, s.host.Confined o

theorem confined_level_new (t : Tables) (o : Options) (start : Nat) :
    (Level.new t start o.maxStackDepth).Confined o :=
  ⟨rfl, rfl, Nat.le_max_left _ _⟩

theorem Confined.stands (h : p.Confined o) {r : Reduction} {skipped : Bool} {lowest : Frame}
    {stack : Stack} (hl : Stands p r skipped lowest stack) :
    Level.Confined o ⟨p.tables, stack⟩ := by
  obtain ⟨hbottom, hlimit, hlength⟩ := h.active
  cases hl with
  | empty => exact ⟨hbottom, hlimit, hlength⟩
  | @popped n f hd hf =>
    refine ⟨hbottom, hlimit, ?_⟩
    have hle : (p.active.stack.lower (n + 1)).length ≤ p.active.stack.length :=
      Nat.succ_le_succ (Nat.sub_le _ _)
    exact Nat.le_trans hle hlength

theorem Confined.raised (h : p.Confined o) {f : Frame}
    (room : p.active.stack.length < p.active.stack.limit) : (p.raised f).Confined o := by
  obtain ⟨hbottom, hlimit, -⟩ := h.active
  refine ⟨h.options_eq, ⟨hbottom, hlimit, ?_⟩, h.suspended⟩
  show p.active.stack.length + 1 ≤ max 1 o.maxStackDepth
  omega

theorem Confined.keptByChanges (o : Options) (token : Token) :
    KeptByChanges token (Confined o) fun _ _ => True where
  recovered _ h := ⟨h.options_eq, h.active, h.suspended⟩
  closed h := ⟨h.options_eq, h.active, h.suspended⟩
  consumed _ _ h _ := ⟨h.options_eq, h.active, h.suspended⟩
  shifted _ _ _ _ := trivial
  pushed _ _ := trivial
  popped h hl := ⟨h.options_eq, h.stands hl, h.suspended⟩
  reduced h hl := ⟨h.options_eq, h.stands hl, h.suspended⟩
  built _ _ _ := trivial
  raised h _ room := h.raised room
  entered {p start} g h _ := by
    refine ⟨h.options_eq, ?_, List.forall_mem_cons.mpr ⟨h.active, h.suspended⟩⟩
    show (Level.new g.tables start p.options.maxStackDepth).Confined o
    rw [h.options_eq]
    exact confined_level_new g.tables o start

theorem confined_invariant (t : Tables) (o : Options) (u : User) :
    Invariant t u (Confined o) (fun _ => True) fun _ => True where
  call _ := trivial
  eof _ := trivial
  placeholder _ _ := trivial
  entry _ _ _ := trivial
  step {_ token _} h _ _ hout := (Confined.keptByChanges o token).outcome hout h
  left h _ hs _ := by
    obtain ⟨hhost, houter⟩ := List.forall_mem_cons.mp (hs ▸ h.suspended)
    exact ⟨h.options_eq, hhost, houter⟩

theorem Confined.withinBounds (h : p.Confined o) (hs : Sound t p) : WithinBounds t o p := by
  obtain ⟨hlast, hchain, hall⟩ := levels_of_nesting hs.nesting p.active rfl
  have hheight := hs.nesting.length_add_height_le
  refine ⟨hlast, hchain, Nat.le_trans (Nat.le_add_right _ _) hheight, ?_⟩
  refine List.forall_mem_cons.mpr ⟨h.active.withinBounds hs.inTables, fun l hl => ?_⟩
  obtain ⟨s, hmem, rfl⟩ := List.mem_map.mp hl
  exact (h.suspended s hmem).withinBounds (hall s hmem)

/-! ## The main statement -/

/-- Whatever calls a user makes, errors or not: in every parse between the calls, and at every point
within them, the levels are within the bounds that the tables and the options give. -/
theorem withinBounds_of_visited (hv : t.Valid) (o : Options) :
    (∀ p, Reachable t o .anyone p → WithinBounds t o p) ∧
    ∀ x, Visited t o .anyone x → WithinBounds t o x.parse := by
  have hvisited : ∀ x, Visited t o .anyone x → WithinBounds t o x.parse := by
    intro x hx
    have hnew : (new t o).Confined o := ⟨rfl, confined_level_new t o 0, by simp [new]⟩
    obtain ⟨hconfined, -⟩ := (confined_invariant t o .anyone).visited hv hnew hx
    exact hconfined.withinBounds (Visited.sound hv hx)
  exact ⟨fun p hp => hvisited _ hp.visited, hvisited⟩

/-! ## A bracket in a bracket -/

/-- Words between two opening brackets and two closing ones. -/
def brackets : Tables := { bracket with nested := [⟨"bracket", bracket, 5, 7⟩] }

theorem brackets_valid : brackets.Valid := by
  refine .intro rfl fun g hg => ?_
  obtain rfl : g = ⟨"bracket", bracket, 5, 7⟩ := by simpa [brackets] using hg
  exact bracket_valid

/-- Behind two opening brackets as many nested grammars run as there can be, and with a limit of two
frames the stacks around the words are full. -/
theorem withinBounds_of_visited_brackets :
    brackets.Valid ∧ ∃ p, Reachable brackets ⟨0, 2⟩ .anyone p ∧ p.nestDepth = brackets.height ∧
      p.levels.map (·.stack.states) = [[0], [0, 1], [0, 1]] ∧ WithinBounds brackets ⟨0, 2⟩ p := by
  have hp : Reachable brackets ⟨0, 2⟩ .anyone _ :=
    (Reachable.new.ok (.advance ⟨3, 0, 1⟩) 2 trivial rfl).ok (.advance ⟨3, 1, 1⟩) 2 trivial rfl
  exact ⟨brackets_valid, _, hp, rfl, rfl, (withinBounds_of_visited brackets_valid ⟨0, 2⟩).1 _ hp⟩

end Parse

end LRMachine
