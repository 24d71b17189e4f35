import Mathlib.Data.List.TakeWhile
import LRMachine.Proofs.DraftLookups
import LRMachine.Proofs.LayoutOffsets
import LRMachine.Proofs.Lookups

/-!
# End marks among the terms of a draft

The end mark is no term, but a draft takes it as the term of an action or a goto like any other. It
closes the run of its state there: what the draft holds for the state from this entry on is written
and never read. `Draft.Admissible` says what laying out asks of a draft; of the entries that are
never read it asks only that their states exist and their actions have words.
`Draft.layOut_refuses_iff` is that laying out refuses exactly the other drafts, and that the tables
answer from the entries in front of the end marks alone. So a draft with an end mark among its terms
need not be refused (`Draft.exists_layOut_eq_ok_of_endMark`).
-/

namespace LRMachine

namespace Run

variable {α : Type} {spell : α → List UInt16} {front : List UInt16} {entries : List (UInt16 × α)}

/-- The entries in front of the first one under the end mark. -/
def visible (entries : List (UInt16 × α)) : List (UInt16 × α) :=
  entries.takeWhile (·.1 != endMark)

/-- The run that the visible entries make is at the front of the cells of all entries. -/
theorem prefix_cells_visible (spell : α → List UInt16) (entries : List (UInt16 × α)) :
    cells spell (visible entries) <+: cells spell entries := by
  induction entries with
  | nil => exact List.prefix_rfl
  | cons e rest ih =>
    obtain ⟨key, v⟩ := e
    by_cases hmark : key = endMark
    · rw [visible, List.takeWhile_cons_of_neg (by simp [hmark]), cells_cons, hmark]
      exact List.prefix_append _ _
    · rw [visible, List.takeWhile_cons_of_pos (by simp [hmark]), cells_cons, cells_cons]
      exact (List.prefix_append_right_inj _).mpr ((List.prefix_append_right_inj _).mpr ih)

theorem writtenAt_visible (h : cells spell entries <+: front) :
    WrittenAt spell front (visible entries) := by
  refine ⟨(prefix_cells_visible spell entries).trans h, fun e he => ?_⟩
  simpa using List.mem_takeWhile_imp he

/-- Of cells that were written, what is read has a property if the visible entries have it. -/
theorem exists_prefix_iff {k : Nat} (hlength : ∀ v, (spell v).length = k)
    (hspell : Function.Injective spell) (h : cells spell entries <+: front)
    (P : UInt16 → α → Prop) :
    (∃ es, cells spell es <+: front ∧ ∀ e ∈ es, e.1 ≠ endMark ∧ P e.1 e.2) ↔
      ∀ e ∈ visible entries, P e.1 e.2 := by
  obtain ⟨hcells, hkeys⟩ := writtenAt_visible h
  constructor
  · rintro ⟨es, hes, hall⟩
    obtain rfl := eq_of_cells_prefix hlength hspell hes hcells (fun e he => (hall e he).1) hkeys
    exact fun e he => (hall e he).2
  · exact fun hall => ⟨_, hcells, fun e he => ⟨hkeys e he, hall e he⟩⟩

end Run

namespace Draft

/-! ## What is in front of the end marks -/

/-- The action entries of a state in front of the first one under the end mark. -/
def visibleActions (d : Draft) (state : Nat) : List ActionEntry :=
  (d.actionsOf state).takeWhile (·.term != endMark)

/-- The goto entries of a state in front of the first one under the end mark. -/
def visibleGotos (d : Draft) (state : Nat) : List GotoEntry :=
  (d.gotosOf state).takeWhile (·.term != endMark)

/-- What the check asks of an action: its target is a state of the draft, and a reduction makes
progress and builds a term of the grammar. -/
def Admits (d : Draft) : Action → Prop
  | .shift target => target.toNat < d.descriptors.size
  | .push target => target.toNat < d.descriptors.size
  | .skip _ => True
  | .reduce r => ¬ (r.stays = true ∧ r.depth = 0) ∧ r.term.isReserved = false

/-- What laying out asks of a draft. -/
structure Admissible (d : Draft) : Prop where
  one_le : 1 ≤ d.descriptors.size
  le : d.descriptors.size ≤ 65536
  start_lt : d.start.toNat < d.descriptors.size
  nests : ∀ (i : Nat) (descriptor : Descriptor), d.descriptors[i]? = some descriptor →
    ∀ index, descriptor.nestIndex? = some index → index < d.nested.size
  owners : ∀ state ∈ d.owners, state.toNat < d.descriptors.size
  words : ∀ e ∈ d.actions.toList, e.action.HasWord
  actions : ∀ i < d.descriptors.size, ∀ e ∈ d.visibleActions i, d.Admits e.action
  gotos : ∀ i < d.descriptors.size, ∀ e ∈ d.visibleGotos i,
    e.term.isReserved = false ∧ e.target ≠ endMark ∧ e.target.toNat < d.descriptors.size
  readings : ∀ e ∈ d.readings.toList, e.raw.Given ∧ e.reading.term.Given

/-! ## What the check asks of the runs -/

section Runs

variable {d : Draft} {s : Storage}

theorem admits_iff (h : s.stateCount = d.descriptors.size) (a : Action) :
    s.Admits a ↔ d.Admits a := by
  cases a <;> simp only [Storage.Admits, Draft.Admits, h]

theorem checkAction_wordEntry_iff (h : s.stateCount = d.descriptors.size) {e : ActionEntry}
    (hword : e.action.HasWord) :
    CellReader.Storable (wordEntry e).2 ∧ s.checkAction (wordEntry e).2 = .ok () ↔
      d.Admits e.action := by
  rw [Storage.checkAction_eq_ok_iff, ← admits_iff h]
  constructor
  · rintro ⟨-, a, hdecode, hadmits⟩
    rw [wordEntry, Action.decode_fields hword] at hdecode
    cases hdecode
    exact hadmits
  · exact fun hadmits => ⟨hword.split_ne_endMark, _, Action.decode_fields hword, hadmits⟩

theorem visible_map_wordEntry (i : Nat) :
    Run.visible ((d.actionsOf i).map wordEntry) = (d.visibleActions i).map wordEntry := by
  rw [Run.visible, List.takeWhile_map]
  rfl

theorem visible_map_goto (i : Nat) :
    Run.visible ((d.gotosOf i).map fun e => (e.term, e.target)) =
      (d.visibleGotos i).map fun e => (e.term, e.target) := by
  rw [Run.visible, List.takeWhile_map]
  rfl

theorem holds_iff {α : Type} {spell : α → List UInt16} {cells : Array UInt16} {offset : UInt32}
    {entries : List (UInt16 × α)} :
    Storage.Holds cells offset (Run.cells spell entries) ↔
      Run.cells spell entries <+: cells.toList.drop offset.toNat := by
  refine ⟨And.right, fun h => ⟨?_, h⟩⟩
  have hle := h.length_le
  have hpos := Run.length_lt_length_cells spell entries
  have hcount : cells.toList.length = cells.size := Array.length_toList
  rw [List.length_drop] at hle
  omega

/-- Where the action run of a state is written, the format asks of the actions in front of the end
mark what the check asks of actions. -/
theorem holdsActions_iff_visible (hcount : s.stateCount = d.descriptors.size) {i : Nat}
    {offset : UInt32} (hwords : ∀ e ∈ d.actionsOf i, e.action.HasWord)
    (hcells : Run.cells CellReader.wordCells ((d.actionsOf i).map wordEntry) <+:
      s.actions.toList.drop offset.toNat) :
    s.HoldsActions offset ↔ ∀ e ∈ d.visibleActions i, d.Admits e.action := by
  simp only [Storage.holdsActions_iff, holds_iff]
  rw [Run.exists_prefix_iff (k := 2) (fun _ => rfl) CellReader.wordCells_injective hcells
    fun _ word => CellReader.Storable word ∧ s.checkAction word = .ok (), visible_map_wordEntry,
    List.forall_mem_map]
  refine forall₂_congr fun e he => checkAction_wordEntry_iff hcount (hwords e ?_)
  exact List.takeWhile_subset _ he

theorem holdsGotos_iff_visible (hcount : s.stateCount = d.descriptors.size) {i : Nat}
    {offset : UInt32} (hcells : d.gotoRun i <+: s.gotos.toList.drop offset.toNat) :
    s.HoldsGotos offset ↔ ∀ e ∈ d.visibleGotos i,
      e.term.isReserved = false ∧ e.target ≠ endMark ∧
        e.target.toNat < d.descriptors.size := by
  rw [gotoRun_eq_cells] at hcells
  simp only [Storage.holdsGotos_iff, holds_iff]
  rw [Run.exists_prefix_iff (k := 1) (fun _ => rfl) List.singleton_injective hcells
    fun term target => Term.isReserved term = false ∧ target ≠ endMark ∧
      target.toNat < s.stateCount, visible_map_goto, List.forall_mem_map, hcount]

end Runs

/-! ## What the check asks of the readings -/

theorem stored_readingRuns_iff (d : Draft) :
    (∀ run ∈ d.readingRuns, Specializations.Stored run) ↔
      ∀ e ∈ d.readings.toList, e.raw.Given ∧ e.reading.term.Given := by
  simp only [readingRuns, List.forall_mem_map, List.mem_eraseDups, Specializations.Stored,
    List.mem_filter, beq_iff_eq, and_imp]
  constructor
  · intro h e he
    obtain ⟨hraw, hrefined⟩ := h e he
    exact ⟨hraw, hrefined e he rfl⟩
  · intro h e he
    exact ⟨(h e he).1, fun e' he' _ => (h e' he').2⟩

theorem exists_specializations_iff (d : Draft) :
    (∃ runs : List (Term × List Specialization),
      d.readingRuns.flatMap Specializations.runCells = runs.flatMap Specializations.runCells ∧
        ∀ run ∈ runs, Specializations.Stored run) ↔
      ∀ e ∈ d.readings.toList, e.raw.Given ∧ e.reading.term.Given := by
  rw [← stored_readingRuns_iff]
  constructor
  · rintro ⟨runs, hcells, hstored⟩
    rwa [Specializations.eq_of_flatMap_runCells hstored hcells]
  · exact fun hstored => ⟨_, rfl, hstored⟩

/-! ## What laying out asks -/

section Layouts

variable {d : Draft} {l : Layout} {t : Tables}

/-- The arrays of a layout are in the storage format exactly if the draft is admissible. -/
theorem HasLayout.formatted_iff (hlay : d.HasLayout l) (hfits : d.FitsOffsets)
    (howners : ∀ state ∈ d.owners, state.toNat < d.descriptors.size) :
    (d.storageOf l).Formatted d.nested.size ↔ d.Admissible := by
  have hcount := hlay.stateCount_eq
  have hplace : ∀ {i}, i < d.descriptors.size →
      ∃ descriptor actions gotos, l.Places d i descriptor actions gotos :=
    fun hi => hlay.exists_places hfits hi
  -- both ways, the words of a record are those of the state's place
  constructor
  · intro h
    refine ⟨hcount ▸ h.one_le, hcount ▸ h.le, hcount ▸ h.start_lt, ?_, howners,
      hlay.hasWord hfits howners, ?_, ?_, (exists_specializations_iff d).mp h.specializations⟩
    · intro i descriptor hdescriptor index hindex
      obtain ⟨hi, -⟩ := Array.getElem?_eq_some_iff.mp hdescriptor
      obtain ⟨_, _, _, hplaces⟩ := hplace hi
      obtain rfl := Option.some.inj (hplaces.descriptor_eq.symm.trans hdescriptor)
      exact h.nests i (hcount ▸ hi) _ hplaces.record index hindex
    · intro i hi
      obtain ⟨_, _, _, hplaces⟩ := hplace hi
      exact (holdsActions_iff_visible hcount hplaces.words hplaces.action_cells).mp
        (h.actions i (hcount ▸ hi) _ hplaces.action_offset)
    · intro i hi
      obtain ⟨_, _, _, hplaces⟩ := hplace hi
      exact (holdsGotos_iff_visible hcount hplaces.goto_cells).mp
        (h.gotos i (hcount ▸ hi) _ hplaces.goto_offset)
  · intro h
    refine ⟨hcount ▸ hlay.laid.1, hcount ▸ h.one_le, hcount ▸ h.le, hcount ▸ h.start_lt, ?_, ?_, ?_,
      (exists_specializations_iff d).mpr h.readings⟩
    · intro i hi word hword index hindex
      obtain ⟨descriptor, _, _, hplaces⟩ := hplace (hcount ▸ hi)
      obtain rfl := Option.some.inj (hplaces.record.symm.trans hword)
      exact h.nests i descriptor hplaces.descriptor_eq index hindex
    · intro i hi offset hoffset
      obtain ⟨_, actions, _, hplaces⟩ := hplace (hcount ▸ hi)
      obtain rfl := Option.some.inj (hplaces.action_offset.symm.trans hoffset)
      exact (holdsActions_iff_visible hcount hplaces.words hplaces.action_cells).mpr
        (h.actions i (hcount ▸ hi))
    · intro i hi offset hoffset
      obtain ⟨_, _, gotos, hplaces⟩ := hplace (hcount ▸ hi)
      obtain rfl := Option.some.inj (hplaces.goto_offset.symm.trans hoffset)
      exact (holdsGotos_iff_visible hcount hplaces.goto_cells).mpr (h.gotos i (hcount ▸ hi))

/-- A draft whose offsets fit is laid out exactly if it is admissible. -/
theorem exists_layOut_iff (hfits : d.FitsOffsets) : (∃ t, d.layOut = .ok t) ↔ d.Admissible := by
  simp only [layOut_eq_ok_iff]
  constructor
  · rintro ⟨_, howners, l, hlay, hcheck, -⟩
    exact (hlay.formatted_iff hfits howners).mp ((Storage.check_eq_ok_iff _ _).mp hcheck)
  · intro h
    obtain ⟨l, hlay⟩ := exists_hasLayout h.words
    have hformatted := (hlay.formatted_iff hfits h.owners).mpr h
    exact ⟨_, h.owners, l, hlay, (Storage.check_eq_ok_iff _ _).mpr hformatted, rfl⟩

theorem answersFrom_visible (hfits : d.FitsOffsets) (h : d.layOut = .ok t) {state : StateId}
    (hs : state.toNat < t.stateCount) :
    t.AnswersFrom state ((d.visibleActions state.toNat).map fun e => (e.term, e.action))
      ((d.visibleGotos state.toNat).map fun e => (e.term, e.target)) := by
  obtain ⟨-, l, hlay, hcheck, rfl⟩ := layOut_eq_ok_iff.mp h
  obtain ⟨_, actions, gotos, hplaces⟩ := hlay.exists_places hfits (hlay.stateCount_eq ▸ hs)
  refine Storage.answersFrom_of_stores hcheck hs ?_ ?_
  · refine ⟨_, (d.visibleActions state.toNat).map wordEntry, ⟨actions, hplaces.action_offset, rfl⟩,
      visible_map_wordEntry state.toNat ▸ Run.writtenAt_visible hplaces.action_cells, ?_⟩
    rw [List.map_map, List.map_map]
    refine List.map_congr_left fun e he => ?_
    have hword := hplaces.words e (List.takeWhile_subset _ he)
    exact congrArg (e.term, ·) (Action.decode_fields hword)
  · have hcells := hplaces.goto_cells
    rw [gotoRun_eq_cells] at hcells
    exact ⟨_, ⟨gotos, hplaces.goto_offset, rfl⟩,
      visible_map_goto state.toNat ▸ Run.writtenAt_visible hcells⟩

end Layouts

/-! ## The main statement -/

/-- Laying out refuses what the calls recorded exactly if it is not admissible, be there end marks
among the terms or not. If it does not refuse, the tables answer as though the entries from the
first end mark of a state on had never been recorded. -/
theorem layOut_refuses_iff {calls : List Call} (h : (ofCalls calls).FitsOffsets) :
    ((∃ e, (ofCalls calls).layOut = .error e) ↔ ¬ (ofCalls calls).Admissible) ∧
    ∀ t, (ofCalls calls).layOut = .ok t → ∀ state : StateId, state.toNat < t.stateCount →
      t.AnswersFrom state
        (((ofCalls calls).visibleActions state.toNat).map fun e => (e.term, e.action))
        (((ofCalls calls).visibleGotos state.toNat).map fun e => (e.term, e.target)) := by
  refine ⟨?_, fun t ht state hs => answersFrom_visible h ht hs⟩
  rw [← exists_layOut_iff h]
  cases (ofCalls calls).layOut <;> simp

/-- Two states, of which the first has an action for a state that was not added and, behind it, one
under the end mark. -/
def strayTarget : List Call := [
  .addState ⟨0⟩, .addState ⟨2⟩, .addAction ⟨0, 3, .shift 7⟩, .addAction ⟨0, endMark, .shift 1⟩]

theorem layOut_refuses_iff_strayTarget :
    (ofCalls strayTarget).FitsOffsets ∧
      (∃ e ∈ strayTarget.filterMap Call.action?, e.term = endMark) ∧
      (∃ e, (ofCalls strayTarget).layOut = .error e) ∧ ¬ (ofCalls strayTarget).Admissible := by
  have hfits : (ofCalls strayTarget).FitsOffsets := ⟨by decide, by decide⟩
  have hrefused : ∃ e, (ofCalls strayTarget).layOut = .error e := ⟨_, rfl⟩
  exact ⟨hfits, by decide, hrefused, (layOut_refuses_iff hfits).1.mp hrefused⟩

/-- Two states, of which the first has an action under the end mark and, behind it, one under a
term of the grammar. -/
def markInFront : List Call := [
  .addState ⟨0⟩, .addState ⟨2⟩, .addAction ⟨0, endMark, .shift 1⟩, .addAction ⟨0, 3, .shift 1⟩]

/-- A draft with an end mark among its terms is laid out, and both actions of the state are gone. -/
theorem exists_layOut_eq_ok_of_endMark :
    (∃ e ∈ markInFront.filterMap Call.action?, e.term = endMark) ∧
      (¬ ∃ e, (ofCalls markInFront).layOut = .error e) ∧
      ∃ t, (ofCalls markInFront).layOut = .ok t ∧ t.actionTerms 0 = .ok [] ∧
        t.action 0 3 = .ok none := by
  have hlay : ∃ t, (ofCalls markInFront).layOut = .ok t ∧ t.actionTerms 0 = .ok [] ∧
      t.action 0 3 = .ok none := ⟨_, rfl, rfl, rfl⟩
  refine ⟨by decide, ?_, hlay⟩
  rintro ⟨e, herror⟩
  obtain ⟨t, hok, -⟩ := hlay
  rw [hok] at herror
  cases herror

end Draft

end LRMachine
