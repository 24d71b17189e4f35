import LRMachine.Proofs.DraftLayout

/-!
# Offsets in the layout of a draft

The action run of a state is written exactly if all of its actions have words
(`Draft.actionRun_eq_ok_iff`). The runs take three cells for an action, two for a goto and one for
each end (`Draft.Layout.Counts`), so in a draft of fewer than 2^32 cells every offset is kept by the
word of its record and leads to the run of its state (`Draft.HasLayout.exists_places`). With this,
`Draft.layOut_eq_ok_iff` takes laying out apart into the layout and its check.
-/

namespace LRMachine

theorem Run.length_cells {α : Type} {spell : α → List UInt16} {n : Nat}
    (hlength : ∀ v, (spell v).length = n) (entries : List (UInt16 × α)) :
    (cells spell entries).length = (n + 1) * entries.length + 1 := by
  induction entries with
  | nil => rfl
  | cons e rest ih =>
    obtain ⟨key, v⟩ := e
    rw [cells_cons, List.length_append, List.length_append, ih, hlength, List.length_singleton,
      List.length_cons, Nat.mul_succ]
    omega

namespace Draft

/-! ## Action runs -/

/-- The entry of a run that an action entry is written as, if its action has a word. -/
def wordEntry (e : ActionEntry) : Term × UInt32 := (e.term, e.action.fields.toWord)

theorem actionCells_eq_ok_iff {e : ActionEntry} {cells : List UInt16} :
    actionCells e = .ok cells ↔
      e.action.HasWord ∧ cells = e.term :: CellReader.wordCells (wordEntry e).2 := by
  rw [actionCells, bind_eq_ok_iff]
  constructor
  · rintro ⟨word, hword, hcells⟩
    obtain ⟨hhas, rfl⟩ := Action.encode_eq_ok_iff.mp hword
    cases hcells
    exact ⟨hhas, rfl⟩
  · rintro ⟨hhas, rfl⟩
    exact ⟨_, Action.encode_eq_ok_iff.mpr ⟨hhas, rfl⟩, rfl⟩

theorem mapM_actionCells_eq_ok_iff {es : List ActionEntry} :
    ∀ {cells : List (List UInt16)}, es.mapM actionCells = .ok cells ↔
      (∀ e ∈ es, e.action.HasWord) ∧
        cells = es.map fun e => e.term :: CellReader.wordCells (wordEntry e).2 := by
  induction es with
  | nil =>
    intro cells
    simp [pure, Except.pure, eq_comm]
  | cons e es ih =>
    intro cells
    rw [List.mapM_cons, bind_eq_ok_iff, List.forall_mem_cons, List.map_cons]
    constructor
    · rintro ⟨first, hfirst, h⟩
      obtain ⟨rest, hrest, hcells⟩ := exists_of_bind_eq_ok h
      cases hcells
      obtain ⟨hhas, rfl⟩ := actionCells_eq_ok_iff.mp hfirst
      obtain ⟨hall, rfl⟩ := ih.mp hrest
      exact ⟨⟨hhas, hall⟩, rfl⟩
    · rintro ⟨⟨hhas, hall⟩, rfl⟩
      refine ⟨_, actionCells_eq_ok_iff.mpr ⟨hhas, rfl⟩, bind_eq_ok_iff.mpr ?_⟩
      exact ⟨_, ih.mpr ⟨hall, rfl⟩, rfl⟩

/-- The run of a state is written exactly if all of its actions have words. -/
theorem actionRun_eq_ok_iff {d : Draft} {i : Nat} {run : List UInt16} :
    d.actionRun i = .ok run ↔ (∀ e ∈ d.actionsOf i, e.action.HasWord) ∧
      run = Run.cells CellReader.wordCells ((d.actionsOf i).map wordEntry) := by
  rw [actionRun, bind_eq_ok_iff, Run.cells, List.flatMap_map]
  constructor
  · rintro ⟨cells, hcells, hrun⟩
    cases hrun
    obtain ⟨hall, rfl⟩ := mapM_actionCells_eq_ok_iff.mp hcells
    exact ⟨hall, by rw [List.flatMap_def]; rfl⟩
  · rintro ⟨hall, rfl⟩
    exact ⟨_, mapM_actionCells_eq_ok_iff.mpr ⟨hall, rfl⟩, by rw [List.flatMap_def]; rfl⟩

/-! ## The sizes of a layout -/

/-- The offsets of all runs are below 2^32. -/
structure FitsOffsets (d : Draft) : Prop where
  actions : 3 * d.actions.size + d.descriptors.size < UInt32.size
  gotos : 2 * d.gotos.size + d.descriptors.size < UInt32.size

/-- All states of the draft are laid out. -/
def HasLayout (d : Draft) (l : Layout) : Prop :=
  d.descriptors.toList.zipIdx.foldlM d.layState {} = .ok l

/-- The runs of the first `k` states are laid out: a cell closes each of them, and every entry of
these states takes three cells or two. -/
structure Layout.Counts (d : Draft) (l : Layout) (k : Nat) : Prop where
  actions : l.actions.size = 3 * d.actions.toList.countP (·.state.toNat < k) + k
  gotos : l.gotos.size = 2 * d.gotos.toList.countP (·.state.toNat < k) + k

theorem countP_lt_succ {α : Type} (f : α → Nat) (k : Nat) (l : List α) :
    l.countP (fun a => decide (f a < k + 1)) =
      l.countP (fun a => decide (f a < k)) + (l.filter (f · == k)).length := by
  induction l with
  | nil => rfl
  | cons a l ih =>
    rw [List.countP_cons, List.countP_cons, List.filter_cons, ih]
    simp only [decide_eq_true_eq, beq_iff_eq]
    by_cases heq : f a = k
    · have hlt : ¬ f a < k := by omega
      have hsucc : f a < k + 1 := by omega
      rw [if_pos hsucc, if_neg hlt, if_pos heq, List.length_cons]
      omega
    · have hsucc : f a < k + 1 ↔ f a < k := by omega
      simp only [hsucc, if_neg heq]
      omega

theorem Layout.Counts.of_layState {d : Draft} {l l' : Layout} {state : Descriptor × Nat}
    (h : l.Counts d state.2) (hlay : d.layState l state = .ok l') : l'.Counts d (state.2 + 1) := by
  obtain ⟨run, hrun, hl'⟩ := exists_of_bind_eq_ok hlay
  cases hl'
  obtain ⟨-, rfl⟩ := actionRun_eq_ok_iff.mp hrun
  constructor
  · rw [← Array.length_toList, Layout.actions_addState, List.length_append, Array.length_toList,
      Run.length_cells (n := 2) (fun _ => rfl), List.length_map, h.actions, countP_lt_succ,
      actionsOf]
    omega
  · rw [← Array.length_toList, Layout.gotos_addState, List.length_append, Array.length_toList,
      gotoRun_eq_cells, Run.length_cells (n := 1) (fun _ => rfl), List.length_map, h.gotos,
      countP_lt_succ, gotosOf]
    omega

theorem Layout.Counts.of_foldlM {d : Draft} {descriptors : List Descriptor} :
    ∀ {k : Nat} {l l' : Layout}, l.Counts d k →
      (descriptors.zipIdx k).foldlM d.layState l = .ok l' →
        l'.Counts d (k + descriptors.length) := by
  induction descriptors with
  | nil =>
    intro k l l' h hlay
    cases hlay
    exact h
  | cons descriptor rest ih =>
    intro k l l' h hlay
    rw [List.zipIdx_cons, List.foldlM_cons] at hlay
    obtain ⟨next, hnext, hlay⟩ := exists_of_bind_eq_ok hlay
    have hcounts := ih (h.of_layState hnext) hlay
    rwa [Nat.add_right_comm, Nat.add_assoc] at hcounts

/-- In a draft whose offsets fit, no run begins behind them. -/
theorem HasLayout.sizes_lt {d : Draft} {l : Layout} (hlay : d.HasLayout l) (h : d.FitsOffsets) :
    l.actions.size < UInt32.size ∧ l.gotos.size < UInt32.size := by
  have hempty : Layout.Counts d {} 0 := ⟨by simp, by simp⟩
  have hcounts := hempty.of_foldlM hlay
  have hactions := hcounts.actions
  have hgotos := hcounts.gotos
  rw [Array.length_toList, Nat.zero_add] at hactions hgotos
  have hactionsLe := List.countP_le_length (l := d.actions.toList)
    (p := (·.state.toNat < d.descriptors.size))
  have hgotosLe := List.countP_le_length (l := d.gotos.toList)
    (p := (·.state.toNat < d.descriptors.size))
  rw [Array.length_toList] at hactionsLe hgotosLe
  have := h.actions
  have := h.gotos
  omega

/-! ## Where a state is laid out -/

/-- The arrays of a layout. -/
def storageOf (d : Draft) (l : Layout) : Storage :=
  ⟨d.start, l.states, l.actions, l.gotos,
    (d.readingRuns.flatMap Specializations.runCells).toArray⟩

/-- The record of a state in a layout, with the offsets from which on its entries are written. -/
structure Layout.Places (d : Draft) (l : Layout) (i : Nat) (descriptor : Descriptor)
    (actions gotos : UInt32) : Prop where
  descriptor_eq : d.descriptors[i]? = some descriptor
  record : l.states[3 * i]? = some descriptor.bits
  action_offset : l.states[3 * i + 1]? = some actions
  goto_offset : l.states[3 * i + 2]? = some gotos
  words : ∀ e ∈ d.actionsOf i, e.action.HasWord
  action_cells : Run.cells CellReader.wordCells ((d.actionsOf i).map wordEntry) <+:
    l.actions.toList.drop actions.toNat
  goto_cells : d.gotoRun i <+: l.gotos.toList.drop gotos.toNat

theorem toNat_offset {cells : Array UInt16} {run : List UInt16} {offset : Nat}
    (h : run <+: cells.toList.drop offset) (hne : run ≠ []) (hsize : cells.size < UInt32.size) :
    (UInt32.ofNat offset).toNat = offset := by
  have hle := h.length_le
  have hpos := List.length_pos_iff.mpr hne
  have hcount : cells.toList.length = cells.size := Array.length_toList
  rw [List.length_drop] at hle
  exact UInt32.toNat_ofNat_of_lt' (by omega)

section Layouts

variable {d : Draft} {l : Layout} {t : Tables}

theorem HasLayout.laid (hlay : d.HasLayout l) :
    l.states.size = 3 * d.descriptors.size ∧ ∀ i < d.descriptors.size, d.Laid l i := by
  have hlaid := laid_of_foldlM hlay rfl rfl (fun i hi => absurd hi (Nat.not_lt_zero i))
  rwa [Nat.zero_add, Array.length_toList] at hlaid

theorem HasLayout.stateCount_eq (hlay : d.HasLayout l) :
    (d.storageOf l).stateCount = d.descriptors.size := by
  have hsize := hlay.laid.1
  have : (d.storageOf l).stateCount = l.states.size / 3 := rfl
  omega

/-- Every state has its place, and the offsets in its record lead there. -/
theorem HasLayout.exists_places (hlay : d.HasLayout l) (hfits : d.FitsOffsets) {i : Nat}
    (hi : i < d.descriptors.size) :
    ∃ descriptor actions gotos, l.Places d i descriptor actions gotos := by
  obtain ⟨hactions, hgotos⟩ := hlay.sizes_lt hfits
  obtain ⟨descriptor, run, a, g, hdescriptor, hrun, hhas⟩ := hlay.laid.2 i hi
  have ha := toNat_offset hhas.action_cells (actionRun_ne_nil hrun) hactions
  have hg := toNat_offset hhas.goto_cells (d.gotoRun_ne_nil i) hgotos
  obtain ⟨hwords, rfl⟩ := actionRun_eq_ok_iff.mp hrun
  exact ⟨descriptor, UInt32.ofNat a, UInt32.ofNat g, hdescriptor, hhas.descriptor_eq,
    hhas.action_offset, hhas.goto_offset, hwords, ha.symm ▸ hhas.action_cells,
    hg.symm ▸ hhas.goto_cells⟩

theorem HasLayout.hasWord (hlay : d.HasLayout l) (hfits : d.FitsOffsets)
    (howners : ∀ state ∈ d.owners, state.toNat < d.descriptors.size) :
    ∀ e ∈ d.actions.toList, e.action.HasWord := by
  intro e he
  have hi := howners e.state (List.mem_append_left _ (List.mem_map_of_mem he))
  obtain ⟨_, _, _, hplaces⟩ := hlay.exists_places hfits hi
  exact hplaces.words e (List.mem_filter.mpr ⟨he, beq_self_eq_true _⟩)

theorem exists_foldlM_layState (hwords : ∀ e ∈ d.actions.toList, e.action.HasWord) :
    ∀ (states : List (Descriptor × Nat)) (l : Layout),
      ∃ l', states.foldlM d.layState l = .ok l' := by
  intro states
  induction states with
  | nil => exact fun l => ⟨l, rfl⟩
  | cons state rest ih =>
    intro l
    have hrun : d.actionRun state.2 = .ok _ :=
      actionRun_eq_ok_iff.mpr ⟨fun e he => hwords e (List.mem_filter.mp he).1, rfl⟩
    obtain ⟨l', hl'⟩ := ih (l.addState state.1 _ (d.gotoRun state.2))
    refine ⟨l', ?_⟩
    rw [List.foldlM_cons, layState, hrun]
    exact hl'

theorem exists_hasLayout (hwords : ∀ e ∈ d.actions.toList, e.action.HasWord) :
    ∃ l, d.HasLayout l :=
  exists_foldlM_layState hwords d.descriptors.toList.zipIdx {}

/-! ## Laying out -/

theorem checkOwners_eq_ok_iff :
    d.checkOwners = .ok () ↔ ∀ state ∈ d.owners, state.toNat < d.descriptors.size := by
  unfold checkOwners
  cases hfind : d.owners.find? (d.descriptors.size ≤ ·.toNat) with
  | none => simpa using hfind
  | some state =>
    have hmem := List.mem_of_find?_eq_some hfind
    have hle := List.find?_some hfind
    simp only [decide_eq_true_eq] at hle
    simp only [reduceCtorEq, false_iff]
    exact fun hall => absurd (hall state hmem) (Nat.not_lt.mpr hle)

/-- The tables of a draft are a layout of its states that passes the check. -/
theorem layOut_eq_ok_iff :
    d.layOut = .ok t ↔ (∀ state ∈ d.owners, state.toNat < d.descriptors.size) ∧
      ∃ l, d.HasLayout l ∧ (d.storageOf l).check d.nested.size = .ok () ∧
        t = { d.storageOf l with nested := d.nested.toList, names := [] } := by
  rw [← checkOwners_eq_ok_iff]
  constructor
  · intro h
    obtain ⟨_, howners, h⟩ := exists_of_bind_eq_ok h
    obtain ⟨l, hlay, hmake⟩ := exists_of_bind_eq_ok h
    exact ⟨howners, l, hlay, (Tables.make_eq_ok_iff _ _ _).mp hmake⟩
  · rintro ⟨howners, l, hlay, hmake⟩
    unfold layOut
    refine bind_eq_ok_iff.mpr ⟨(), howners, bind_eq_ok_iff.mpr ⟨l, hlay, ?_⟩⟩
    exact (Tables.make_eq_ok_iff _ _ _).mpr hmake

end Layouts

end Draft

end LRMachine
