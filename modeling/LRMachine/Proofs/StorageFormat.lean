import LRMachine.Proofs.Readings

/-!
# The storage format

`Storage.Formatted` says in terms of the arrays alone when they are the tables of a grammar: whole
records, action and goto runs where the records say, and specializations run by run. The check goes
over the same arrays with four readers; `Storage.check_eq_ok_iff` says that they accept the format
and nothing else, wherever runs overlap and whatever else the cells hold. Hence tables are made of
arrays exactly if the arrays are formatted (`Tables.exists_make_iff_formatted`).
-/

namespace LRMachine

namespace Storage

/-! ## The format -/

/-- The cells from an offset on begin with the given ones. -/
def Holds (cells : Array UInt16) (offset : UInt32) (run : List UInt16) : Prop :=
  offset.toNat < cells.size ∧ run <+: cells.toList.drop offset.toNat

/-- An action run begins at an offset: terms, each with the two cells of the word of an action that
the tables admit, no cell of them the end mark, and the end mark behind them. -/
def HoldsActions (s : Storage) (offset : UInt32) : Prop :=
  ∃ entries : List (Term × UInt16 × UInt16),
    Holds s.actions offset
      (entries.flatMap (fun (term, low, high) => [term, low, high]) ++ [endMark]) ∧
    ∀ term low high, (term, low, high) ∈ entries →
      term ≠ endMark ∧ low ≠ endMark ∧ high ≠ endMark ∧
        ∃ a, Action.decode (Action.join low high) = .ok a ∧ s.Admits a

/-- A goto run begins at an offset: terms of the grammar, each with a target that has a record, no
cell of them the end mark, and the end mark behind them. -/
def HoldsGotos (s : Storage) (offset : UInt32) : Prop :=
  ∃ entries : List (Term × StateId),
    Holds s.gotos offset (entries.flatMap (fun (term, target) => [term, target]) ++ [endMark]) ∧
    ∀ term target, (term, target) ∈ entries →
      term.Given ∧ target ≠ endMark ∧ target.toNat < s.stateCount

/-- The arrays are tables in the storage format, for a grammar with so many nested ones. -/
structure Formatted (s : Storage) (nestedCount : Nat) : Prop where
  whole : s.states.size = 3 * s.stateCount
  one_le : 1 ≤ s.stateCount
  le : s.stateCount ≤ 65536
  start_lt : s.start.toNat < s.stateCount
  nests : ∀ i < s.stateCount, ∀ word, s.states[3 * i]? = some word →
    ∀ index, (Descriptor.mk word).nestIndex? = some index → index < nestedCount
  actions : ∀ i < s.stateCount, ∀ offset, s.states[3 * i + 1]? = some offset →
    s.HoldsActions offset
  gotos : ∀ i < s.stateCount, ∀ offset, s.states[3 * i + 2]? = some offset → s.HoldsGotos offset
  specializations : ∃ runs : List (Term × List Specialization),
    s.specializations.toList = runs.flatMap Specializations.runCells ∧
      ∀ run ∈ runs, Specializations.Stored run

/-! ## The runs of a state -/

variable {s : Storage}

/-- A run is read to its end at an offset exactly if one is written there. -/
theorem exists_ending_placeOf_iff {α : Type} {entry : UInt16 → CellReader α}
    {spell : α → List UInt16} {P : UInt16 → α → Prop} (hreads : Run.Reads entry spell P)
    (table : TableKind) (cells : Array UInt16) (state : StateId) (offset : UInt32) :
    (∃ place rest, placeOf table cells state offset = .ok place ∧
      (Run.ofCells entry place).ending = .ok rest) ↔
    ∃ entries, Holds cells offset (Run.cells spell entries) ∧
      ∀ e ∈ entries, e.1 ≠ endMark ∧ P e.1 e.2 := by
  have hplace : ∀ {place}, placeOf table cells state offset = .ok place ↔
      offset.toNat < cells.size ∧ place = ⟨cells, offset.toNat, table, state.toNat⟩ := by
    intro place
    unfold placeOf
    split <;> simp [*, eq_comm]
  constructor
  · rintro ⟨place, rest, hat, hending⟩
    obtain ⟨hlt, rfl⟩ := hplace.mp hat
    obtain ⟨entries, hcells, hall⟩ := (Run.exists_ending_iff hreads _).mp ⟨rest, hending⟩
    exact ⟨entries, ⟨hlt, hcells⟩, hall⟩
  · rintro ⟨entries, ⟨hlt, hcells⟩, hall⟩
    obtain ⟨rest, hending⟩ := (Run.exists_ending_iff hreads
      ⟨cells, offset.toNat, table, state.toNat⟩).mpr ⟨entries, hcells, hall⟩
    exact ⟨_, rest, hplace.mpr ⟨hlt, rfl⟩, hending⟩

theorem reads_checkedAction (s : Storage) :
    Run.Reads s.checkedAction CellReader.wordCells
      fun _ word => CellReader.Storable word ∧ s.checkAction word = .ok () :=
  Run.reads_nextPair.check s.checkAction

theorem reads_checkedGoto (s : Storage) :
    Run.Reads s.checkedGoto (fun target => [target]) fun term target =>
      Term.isReserved term = false ∧ target ≠ endMark ∧ target.toNat < s.stateCount := by
  intro term c target c'
  have hread := Run.reads_nextValue.check s.checkTarget term c target c'
  constructor
  · intro h
    unfold checkedGoto at h
    split at h
    · cases h
    · obtain ⟨hcell, ⟨hmark, htarget⟩, hpast⟩ := hread.mp h
      refine ⟨hcell, ⟨?_, hmark, (checkTarget_eq_ok_iff s target).mp htarget⟩, hpast⟩
      simpa using ‹¬ Term.isReserved term = true›
  · rintro ⟨hcell, ⟨hterm, hmark, htarget⟩, hpast⟩
    unfold checkedGoto
    rw [if_neg (by simp [hterm])]
    exact hread.mpr ⟨hcell, ⟨hmark, (checkTarget_eq_ok_iff s target).mpr htarget⟩, hpast⟩

theorem cells_wordCells (entries : List (Term × UInt32)) :
    Run.cells CellReader.wordCells entries =
      (entries.map fun e => (e.1, Action.split e.2)).flatMap
        (fun (term, low, high) => [term, low, high]) ++ [endMark] := by
  rw [Run.cells, List.flatMap_map]
  rfl

theorem holdsActions_iff (offset : UInt32) :
    s.HoldsActions offset ↔
      ∃ entries, Holds s.actions offset (Run.cells CellReader.wordCells entries) ∧
        ∀ e ∈ entries, e.1 ≠ endMark ∧ CellReader.Storable e.2 ∧ s.checkAction e.2 = .ok () := by
  constructor
  · rintro ⟨entries, hcells, hall⟩
    refine ⟨entries.map fun e => (e.1, Action.join e.2.1 e.2.2), ?_, ?_⟩
    · rw [cells_wordCells, List.map_map]
      simpa [Function.comp_def, Action.split_join] using hcells
    · rw [List.forall_mem_map]
      rintro ⟨term, low, high⟩ he
      obtain ⟨hterm, hlow, hhigh, haction⟩ := hall term low high he
      refine ⟨hterm, ?_, (checkAction_eq_ok_iff s _).mpr haction⟩
      rw [CellReader.Storable, Action.split_join]
      exact ⟨hlow, hhigh⟩
  · rintro ⟨entries, hcells, hall⟩
    rw [cells_wordCells] at hcells
    refine ⟨_, hcells, fun term low high he => ?_⟩
    obtain ⟨⟨term, word⟩, hmem, heq⟩ := List.mem_map.mp he
    obtain ⟨rfl, hsplit⟩ := Prod.mk.inj heq
    obtain ⟨hterm, ⟨hlow, hhigh⟩, haction⟩ := hall _ hmem
    rw [hsplit] at hlow hhigh
    refine ⟨hterm, hlow, hhigh, ?_⟩
    have hword : Action.join low high = word := by
      have hjoin := Action.join_split word
      rwa [hsplit] at hjoin
    rw [hword]
    exact (checkAction_eq_ok_iff s word).mp haction

theorem holdsGotos_iff (offset : UInt32) :
    s.HoldsGotos offset ↔
      ∃ entries, Holds s.gotos offset (Run.cells (fun target => [target]) entries) ∧
        ∀ e ∈ entries, e.1 ≠ endMark ∧
          (Term.isReserved e.1 = false ∧ e.2 ≠ endMark ∧ e.2.toNat < s.stateCount) := by
  constructor
  · rintro ⟨entries, hcells, hall⟩
    refine ⟨entries, hcells, fun e he => ?_⟩
    obtain ⟨⟨hterm, hmark⟩, htarget⟩ := hall e.1 e.2 he
    exact ⟨hmark, hterm, htarget⟩
  · rintro ⟨entries, hcells, hall⟩
    refine ⟨entries, hcells, fun term target he => ?_⟩
    obtain ⟨hmark, hterm, htarget⟩ := hall _ he
    exact ⟨⟨hterm, hmark⟩, htarget⟩

/-! ## The check of a state -/

section State

variable {n : Nat} {state : StateId}

theorem recordWord_eq_ok_iff {field : Nat} {word : UInt32} :
    s.recordWord state field = .ok word ↔ s.states[3 * state.toNat + field]? = some word := by
  unfold recordWord
  cases s.states[3 * state.toNat + field]? <;> simp

theorem checkNest_eq_ok_iff {word : UInt32} (h : s.states[3 * state.toNat]? = some word) :
    s.checkNest n state = .ok () ↔
      ∀ index, (Descriptor.mk word).nestIndex? = some index → index < n := by
  have hd : s.descriptor state = .ok ⟨word⟩ := by
    have hrecord : s.recordWord state 0 = .ok word := recordWord_eq_ok_iff.mpr h
    rw [descriptor, hrecord]
    rfl
  simp only [checkNest, hd, bind, Except.bind]
  cases (Descriptor.mk word).nestIndex? with
  | none => simp
  | some index =>
    simp only [Option.some.injEq, forall_eq']
    split <;> simp [*]

/-- A state passes the check exactly if its record names a nested grammar that exists and places
where runs begin. -/
theorem checkState_eq_ok_iff {word actions gotos : UInt32}
    (hword : s.states[3 * state.toNat]? = some word)
    (hactions : s.states[3 * state.toNat + 1]? = some actions)
    (hgotos : s.states[3 * state.toNat + 2]? = some gotos) :
    s.checkState n state = .ok () ↔
      (∀ index, (Descriptor.mk word).nestIndex? = some index → index < n) ∧
        s.HoldsActions actions ∧ s.HoldsGotos gotos := by
  have hactionPlace : s.actionPlace state = placeOf .actions s.actions state actions := by
    rw [actionPlace, recordWord_eq_ok_iff.mpr hactions]
    rfl
  have hgotoPlace : s.gotoPlace state = placeOf .gotos s.gotos state gotos := by
    rw [gotoPlace, recordWord_eq_ok_iff.mpr hgotos]
    rfl
  rw [holdsActions_iff, holdsGotos_iff,
    ← exists_ending_placeOf_iff (reads_checkedAction s) .actions s.actions state,
    ← exists_ending_placeOf_iff (reads_checkedGoto s) .gotos s.gotos state,
    ← checkNest_eq_ok_iff hword, ← hactionPlace, ← hgotoPlace]
  constructor
  · exact checkState_parts
  · rintro ⟨hnest, ⟨place, rest, hplace, hending⟩, ⟨place', rest', hplace', hending'⟩⟩
    simp only [checkState, bind, Except.bind, hnest, hplace, hending, hplace', hending', pure,
      Except.pure]

end State

/-! ## The whole check -/

theorem seq_eq_ok_iff {x y : Except Error Unit} :
    (do x; y) = .ok () ↔ x = .ok () ∧ y = .ok () := by
  rw [bind_eq_ok_iff]
  exact ⟨fun ⟨_, hx, hy⟩ => ⟨hx, hy⟩, fun ⟨hx, hy⟩ => ⟨(), hx, hy⟩⟩

theorem checkSize_eq_ok_iff (s : Storage) :
    s.checkSize = .ok () ↔
      s.states.size = 3 * s.stateCount ∧ 1 ≤ s.stateCount ∧ s.stateCount ≤ 65536 := by
  have hcount : s.stateCount = s.states.size / 3 := rfl
  unfold checkSize
  split
  · rename_i hbad
    simp only [Bool.or_eq_true, decide_eq_true_eq, bne_iff_ne] at hbad
    simp only [reduceCtorEq, false_iff]
    omega
  · rename_i hgood
    simp only [Bool.or_eq_true, decide_eq_true_eq, bne_iff_ne] at hgood
    simp only [true_iff]
    omega

theorem checkLastStates_eq_ok_iff (n : Nat) :
    ∀ m, s.checkLastStates n m = .ok () ↔
      ∀ i < m, s.checkState n (UInt16.ofNat (s.stateCount - (i + 1))) = .ok () := by
  intro m
  induction m with
  | zero => simp [checkLastStates]
  | succ m ih =>
    rw [checkLastStates, seq_eq_ok_iff, ih, Nat.forall_lt_succ_right, and_comm]

theorem checkSpecializations_eq_ok_iff (cells : Array UInt16) :
    Specializations.check cells = .ok () ↔
      ∃ runs : List (Term × List Specialization),
        cells.toList = runs.flatMap Specializations.runCells ∧
          ∀ run ∈ runs, Specializations.Stored run := by
  simp only [← Specializations.runs_eq_ok_iff, Specializations.check]
  cases Specializations.runs cells <;> simp [Except.map]

theorem forall_lastStates_iff {p : Nat → Prop} {count : Nat} :
    (∀ i < count, p (count - (i + 1))) ↔ ∀ i < count, p i := by
  constructor
  · intro h i hi
    have hlast := h (count - (i + 1)) (by omega)
    rwa [show count - (count - (i + 1) + 1) = i by omega] at hlast
  · exact fun h i hi => h _ (by omega)

/-- Every state passes the check exactly if the records are as the format says. -/
theorem forall_checkState_iff (n : Nat) (hwhole : s.states.size = 3 * s.stateCount)
    (hle : s.stateCount ≤ 65536) :
    (∀ i < s.stateCount, s.checkState n (UInt16.ofNat i) = .ok ()) ↔
      (∀ i < s.stateCount, ∀ word, s.states[3 * i]? = some word →
        ∀ index, (Descriptor.mk word).nestIndex? = some index → index < n) ∧
      (∀ i < s.stateCount, ∀ offset, s.states[3 * i + 1]? = some offset →
        s.HoldsActions offset) ∧
      ∀ i < s.stateCount, ∀ offset, s.states[3 * i + 2]? = some offset → s.HoldsGotos offset := by
  have hstate : ∀ i < s.stateCount, s.checkState n (UInt16.ofNat i) = .ok () ↔
      (∀ word, s.states[3 * i]? = some word →
        ∀ index, (Descriptor.mk word).nestIndex? = some index → index < n) ∧
      (∀ offset, s.states[3 * i + 1]? = some offset → s.HoldsActions offset) ∧
      ∀ offset, s.states[3 * i + 2]? = some offset → s.HoldsGotos offset := by
    intro i hi
    have hi' : (UInt16.ofNat i).toNat = i :=
      UInt16.toNat_ofNat_of_lt (Nat.lt_of_lt_of_le hi hle)
    have hrecord : ∀ k < 3, ∃ word, s.states[3 * i + k]? = some word :=
      fun k hk => ⟨_, Array.getElem?_eq_getElem (by omega)⟩
    obtain ⟨word, hword⟩ := hrecord 0 (by omega)
    obtain ⟨actions, hactions⟩ := hrecord 1 (by omega)
    obtain ⟨gotos, hgotos⟩ := hrecord 2 (by omega)
    rw [Nat.add_zero] at hword
    rw [← hi'] at hword hactions hgotos
    rw [checkState_eq_ok_iff hword hactions hgotos]
    rw [hi'] at hword hactions hgotos
    simp only [hword, hactions, hgotos, Option.some.injEq, forall_eq']
  rw [forall₂_congr hstate]
  simp only [imp_and, forall_and]

/-- The check accepts exactly the storage format. -/
theorem check_eq_ok_iff (s : Storage) (n : Nat) : s.check n = .ok () ↔ s.Formatted n := by
  rw [check, seq_eq_ok_iff, seq_eq_ok_iff, seq_eq_ok_iff, checkSpecializations_eq_ok_iff,
    checkSize_eq_ok_iff, checkTarget_eq_ok_iff, checkLastStates_eq_ok_iff,
    forall_lastStates_iff (p := fun i => s.checkState n (UInt16.ofNat i) = .ok ())]
  constructor
  · rintro ⟨hspecial, ⟨hwhole, hone, hle⟩, hstart, hstates⟩
    obtain ⟨hnests, hactions, hgotos⟩ := (forall_checkState_iff n hwhole hle).mp hstates
    exact ⟨hwhole, hone, hle, hstart, hnests, hactions, hgotos, hspecial⟩
  · rintro ⟨hwhole, hone, hle, hstart, hnests, hactions, hgotos, hspecial⟩
    exact ⟨hspecial, ⟨hwhole, hone, hle⟩, hstart,
      (forall_checkState_iff n hwhole hle).mpr ⟨hnests, hactions, hgotos⟩⟩

end Storage

/-- Tables are made of arrays exactly if the arrays are in the storage format. -/
theorem Tables.exists_make_iff_formatted (storage : Storage) (nested : List (Nested Tables)) :
    (∃ t, make storage nested = .ok t) ↔ storage.Formatted nested.length := by
  simp only [make_eq_ok_iff, exists_and_left, exists_eq, and_true, Storage.check_eq_ok_iff]

end LRMachine
