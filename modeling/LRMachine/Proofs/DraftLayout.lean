import LRMachine.Proofs.ActionCodec
import LRMachine.Proofs.StorageFormat

/-!
# The layout of a draft

A draft is laid out state by state: a record, and at the end of the action and goto cells the runs
of the state. Records and cells are only added behind those that are there, so every state that has
been laid out keeps its record and its runs (`Layout.Has.addState`). `laid_of_layOut` says where
they are in the finished tables. Read back, they are the entries of the draft for the state, in the
order in which they were added (`exists_actionRun_of_layOut`, `exists_gotoRun_of_layOut`), and the
runs of specializations are its readings (`runs_of_layOut`).
-/

namespace LRMachine

namespace Draft

/-! ## Where a state is laid out -/

/-- A state has its record in a layout, with the offsets `a` and `g` of its runs. -/
structure Layout.Has (l : Layout) (i : Nat) (descriptor : Descriptor)
    (actionRun gotoRun : List UInt16) (a g : Nat) : Prop where
  descriptor_eq : l.states[3 * i]? = some descriptor.bits
  action_offset : l.states[3 * i + 1]? = some (UInt32.ofNat a)
  goto_offset : l.states[3 * i + 2]? = some (UInt32.ofNat g)
  action_cells : actionRun <+: l.actions.toList.drop a
  goto_cells : gotoRun <+: l.gotos.toList.drop g

/-- The state's entries in the draft are laid out. -/
def Laid (d : Draft) (l : Layout) (i : Nat) : Prop :=
  ∃ descriptor actionRun a g, d.descriptors[i]? = some descriptor ∧ d.actionRun i = .ok actionRun ∧
    l.Has i descriptor actionRun (d.gotoRun i) a g

theorem Layout.states_addState (l : Layout) (descriptor : Descriptor) (a g : List UInt16) :
    (l.addState descriptor a g).states.toList = l.states.toList ++
      [descriptor.bits, UInt32.ofNat l.actions.size, UInt32.ofNat l.gotos.size] :=
  Array.toList_appendList

theorem Layout.actions_addState (l : Layout) (descriptor : Descriptor) (a g : List UInt16) :
    (l.addState descriptor a g).actions.toList = l.actions.toList ++ a :=
  Array.toList_appendList

theorem Layout.gotos_addState (l : Layout) (descriptor : Descriptor) (a g : List UInt16) :
    (l.addState descriptor a g).gotos.toList = l.gotos.toList ++ g :=
  Array.toList_appendList

theorem prefix_drop_append {a l : List UInt16} {n : Nat} (h : a <+: l.drop n) (hne : a ≠ [])
    (more : List UInt16) : a <+: (l ++ more).drop n := by
  have hlength : 0 < a.length := List.length_pos_iff.mpr hne
  have hle := h.length_le
  rw [List.length_drop] at hle
  rw [List.drop_append_of_le_length (by omega)]
  exact h.trans (List.prefix_append _ _)

/-- Laying out one more state leaves the earlier ones as they are. -/
theorem Layout.Has.addState {l : Layout} {i : Nat} {descriptor : Descriptor}
    {actionRun gotoRun : List UInt16} {a g : Nat} (h : l.Has i descriptor actionRun gotoRun a g)
    (hactions : actionRun ≠ []) (hgotos : gotoRun ≠ []) (next : Descriptor)
    (actionCells gotoCells : List UInt16) :
    (l.addState next actionCells gotoCells).Has i descriptor actionRun gotoRun a g := by
  have hrecord : ∀ {k : Nat} {word : UInt32}, l.states[k]? = some word →
      (l.addState next actionCells gotoCells).states[k]? = some word := by
    intro k word hk
    obtain ⟨hlt, -⟩ := Array.getElem?_eq_some_iff.mp hk
    rw [← Array.getElem?_toList, Layout.states_addState, List.getElem?_append_left hlt,
      Array.getElem?_toList, hk]
  refine ⟨hrecord h.descriptor_eq, hrecord h.action_offset, hrecord h.goto_offset, ?_, ?_⟩
  · rw [Layout.actions_addState]
    exact prefix_drop_append h.action_cells hactions _
  · rw [Layout.gotos_addState]
    exact prefix_drop_append h.goto_cells hgotos _

theorem Layout.has_addState {l : Layout} {i : Nat} (hsize : l.states.size = 3 * i)
    (descriptor : Descriptor) (actionRun gotoRun : List UInt16) :
    (l.addState descriptor actionRun gotoRun).Has i descriptor actionRun gotoRun
      l.actions.size l.gotos.size := by
  have hrecord : ∀ k, (l.addState descriptor actionRun gotoRun).states[3 * i + k]? =
      [descriptor.bits, UInt32.ofNat l.actions.size, UInt32.ofNat l.gotos.size][k]? := by
    intro k
    have hlength : l.states.toList.length = 3 * i := hsize
    rw [← Array.getElem?_toList, Layout.states_addState, ← hlength,
      List.getElem?_append_right (Nat.le_add_right _ _), Nat.add_sub_cancel_left]
  have hactions : (l.addState descriptor actionRun gotoRun).actions.toList.drop l.actions.size =
      actionRun := by
    rw [Layout.actions_addState, ← Array.length_toList, List.drop_left]
  have hgotos : (l.addState descriptor actionRun gotoRun).gotos.toList.drop l.gotos.size =
      gotoRun := by
    rw [Layout.gotos_addState, ← Array.length_toList, List.drop_left]
  refine ⟨hrecord 0, hrecord 1, hrecord 2, ?_, ?_⟩
  · exact hactions.symm ▸ List.prefix_rfl
  · exact hgotos.symm ▸ List.prefix_rfl

theorem actionRun_ne_nil {d : Draft} {i : Nat} {run : List UInt16} (h : d.actionRun i = .ok run) :
    run ≠ [] := by
  unfold actionRun at h
  obtain ⟨cells, -, hcells⟩ := exists_of_bind_eq_ok h
  cases hcells
  simp

theorem gotoRun_ne_nil (d : Draft) (i : Nat) : d.gotoRun i ≠ [] := by simp [gotoRun]

/-- What one state's turn keeps and adds. -/
theorem laid_of_layState {d : Draft} {l l' : Layout} {descriptor : Descriptor} {k : Nat}
    (h : d.layState l (descriptor, k) = .ok l') (hdescriptor : d.descriptors[k]? = some descriptor)
    (hsize : l.states.size = 3 * k) (hlaid : ∀ i < k, d.Laid l i) :
    l'.states.size = 3 * (k + 1) ∧ ∀ i < k + 1, d.Laid l' i := by
  obtain ⟨run, hrun, hl'⟩ := exists_of_bind_eq_ok h
  cases hl'
  refine ⟨?_, fun i hi => ?_⟩
  · rw [← Array.length_toList, Layout.states_addState, List.length_append, Array.length_toList,
      hsize]
    rfl
  · rcases Nat.lt_succ_iff_lt_or_eq.mp hi with hlt | rfl
    · obtain ⟨earlier, actionRun, a, g, hearlier, hactions, hhas⟩ := hlaid i hlt
      exact ⟨earlier, actionRun, a, g, hearlier, hactions,
        hhas.addState (actionRun_ne_nil hactions) (d.gotoRun_ne_nil i) _ _ _⟩
    · exact ⟨descriptor, run, _, _, hdescriptor, hrun, Layout.has_addState hsize _ _ _⟩

/-- The states from `k` on are laid out one after the other. -/
theorem laid_of_foldlM {d : Draft} :
    ∀ {descriptors : List Descriptor} {k : Nat} {l l' : Layout},
      (descriptors.zipIdx k).foldlM d.layState l = .ok l' →
      descriptors = d.descriptors.toList.drop k → l.states.size = 3 * k →
      (∀ i < k, d.Laid l i) →
        l'.states.size = 3 * (k + descriptors.length) ∧
          ∀ i < k + descriptors.length, d.Laid l' i := by
  intro descriptors
  induction descriptors with
  | nil =>
    intro k l l' h _ hsize hlaid
    cases h
    exact ⟨hsize, hlaid⟩
  | cons descriptor rest ih =>
    intro k l l' h hdrop hsize hlaid
    rw [List.zipIdx_cons, List.foldlM_cons] at h
    obtain ⟨next, hnext, h⟩ := exists_of_bind_eq_ok h
    have hdescriptor : d.descriptors[k]? = some descriptor := by
      rw [← Array.getElem?_toList, ← List.head?_drop, ← hdrop]
      rfl
    have hrest : rest = d.descriptors.toList.drop (k + 1) := by
      rw [← List.tail_drop, ← hdrop]
      rfl
    obtain ⟨hsize', hlaid'⟩ := laid_of_layState hnext hdescriptor hsize hlaid
    rw [List.length_cons, Nat.add_comm rest.length, ← Nat.add_assoc]
    exact ih h hrest hsize' hlaid'

/-- The tables of a draft hold a layout of all of its states. -/
theorem laid_of_layOut {d : Draft} {t : Tables} (h : d.layOut = .ok t) :
    ∃ l : Layout, t.toStorage = ⟨d.start, l.states, l.actions, l.gotos,
        (d.readingRuns.flatMap Specializations.runCells).toArray⟩ ∧
      t.nested = d.nested.toList ∧ t.check = .ok () ∧
      l.states.size = 3 * d.descriptors.size ∧ ∀ i < d.descriptors.size, d.Laid l i := by
  unfold layOut at h
  obtain ⟨_, -, h⟩ := exists_of_bind_eq_ok h
  obtain ⟨l, hlayout, h⟩ := exists_of_bind_eq_ok h
  obtain ⟨hcheck, rfl⟩ := (Tables.make_eq_ok_iff _ _ _).mp h
  have hlaid := laid_of_foldlM hlayout rfl rfl (fun i hi => absurd hi (Nat.not_lt_zero i))
  rw [Nat.zero_add, Array.length_toList] at hlaid
  exact ⟨l, rfl, rfl, hcheck, hlaid⟩

/-! ## The runs that are written -/

/-- The action entries of a state, in the order in which they were added. -/
def actionsOf (d : Draft) (state : Nat) : List ActionEntry :=
  d.actions.toList.filter (·.state.toNat == state)

/-- The goto entries of a state, in the order in which they were added. -/
def gotosOf (d : Draft) (state : Nat) : List GotoEntry :=
  d.gotos.toList.filter (·.state.toNat == state)

theorem exists_words_of_mapM :
    ∀ {es : List ActionEntry} {cells : List (List UInt16)}, es.mapM actionCells = .ok cells →
      ∃ entries : List (Term × UInt32),
        cells.flatten = entries.flatMap (fun e => e.1 :: CellReader.wordCells e.2) ∧
        entries.map (fun e => (e.1, Action.decode e.2)) =
          es.map fun e => (e.term, .ok e.action) := by
  intro es
  induction es with
  | nil =>
    intro cells h
    cases h
    exact ⟨[], rfl, rfl⟩
  | cons e es ih =>
    intro cells h
    rw [List.mapM_cons] at h
    obtain ⟨first, hfirst, h⟩ := exists_of_bind_eq_ok h
    obtain ⟨rest, hrest, h⟩ := exists_of_bind_eq_ok h
    cases h
    obtain ⟨word, hword, hcells⟩ := exists_of_bind_eq_ok hfirst
    cases hcells
    obtain ⟨entries, hflat, hdecode⟩ := ih hrest
    refine ⟨(e.term, word) :: entries, ?_, ?_⟩
    · rw [List.flatten_cons, List.flatMap_cons, hflat]
      rfl
    · rw [List.map_cons, List.map_cons, hdecode, Action.decode_of_encode hword]

theorem exists_words_of_actionRun {d : Draft} {i : Nat} {cells : List UInt16}
    (h : d.actionRun i = .ok cells) :
    ∃ entries, cells = Run.cells CellReader.wordCells entries ∧
      entries.map (fun e => (e.1, Action.decode e.2)) =
        (d.actionsOf i).map fun e => (e.term, .ok e.action) := by
  obtain ⟨parts, hparts, hcells⟩ := exists_of_bind_eq_ok h
  cases hcells
  obtain ⟨entries, hflat, hdecode⟩ := exists_words_of_mapM hparts
  exact ⟨entries, by rw [hflat]; rfl, hdecode⟩

theorem gotoRun_eq_cells (d : Draft) (i : Nat) :
    d.gotoRun i =
      Run.cells (fun target => [target]) ((d.gotosOf i).map fun e => (e.term, e.target)) := by
  rw [gotoRun, Run.cells, List.flatMap_map]
  rfl

/-! ## The runs that are read back -/

/-- A run that is written at an offset below 2^32 is read from there. -/
theorem entries_of_placeOf {α : Type} {entry : UInt16 → CellReader α} {spell : α → List UInt16}
    {P : UInt16 → α → Prop} {k : Nat} (hreads : Run.Reads entry spell P)
    (hlength : ∀ v, (spell v).length = k) (hspell : Function.Injective spell) {table : TableKind}
    {cells : Array UInt16} {state : StateId} {n : Nat} {place rest : Cells}
    (hplace : Storage.placeOf table cells state (UInt32.ofNat n) = .ok place)
    (hend : (Run.ofCells entry place).ending = .ok rest) {entries : List (UInt16 × α)}
    (hcells : Run.cells spell entries <+: cells.toList.drop n)
    (hkeys : ∀ e ∈ entries, e.1 ≠ endMark) (hsize : cells.size < UInt32.size) :
    (Run.ofCells entry place).entries = entries := by
  refine Run.entries_eq_of_cells hreads hlength hspell hend ?_ hkeys
  have hlt : n < cells.size := by
    have hle := hcells.length_le
    have hpos := Run.length_lt_length_cells spell entries
    have hcount : cells.toList.length = cells.size := Array.length_toList
    rw [List.length_drop] at hle
    omega
  have hoffset : (UInt32.ofNat n).toNat = n := UInt32.toNat_ofNat_of_lt' (Nat.lt_trans hlt hsize)
  unfold Storage.placeOf at hplace
  rw [hoffset, if_pos hlt] at hplace
  cases hplace
  exact hcells

section ReadBack

variable {d : Draft} {t : Tables} {state : StateId}

theorem stateCount_of_layOut (h : d.layOut = .ok t) : t.stateCount = d.descriptors.size := by
  obtain ⟨l, hstorage, -, -, hsize, -⟩ := laid_of_layOut h
  rw [hstorage, Storage.stateCount, hsize]
  omega

theorem start_of_layOut (h : d.layOut = .ok t) : t.start = d.start := by
  obtain ⟨l, hstorage, -⟩ := laid_of_layOut h
  rw [hstorage]

theorem recordWord_eq {l : Layout} (hstates : t.states = l.states) {field : Nat} {word : UInt32}
    (h : l.states[3 * state.toNat + field]? = some word) :
    t.recordWord state field = .ok word :=
  Storage.recordWord_eq_ok_iff.mpr (hstates ▸ h)

theorem descriptor_of_layOut (h : d.layOut = .ok t) (hs : state.toNat < t.stateCount) :
    ∃ descriptor, d.descriptors[state.toNat]? = some descriptor ∧
      t.descriptor state = .ok descriptor := by
  have hcount := stateCount_of_layOut h
  obtain ⟨l, hstorage, -, -, -, hlaid⟩ := laid_of_layOut h
  obtain ⟨descriptor, _, _, _, hdescriptor, -, hhas⟩ := hlaid state.toNat (hcount ▸ hs)
  refine ⟨descriptor, hdescriptor, ?_⟩
  rw [Storage.descriptor, recordWord_eq (congrArg Storage.states hstorage) hhas.descriptor_eq]
  rfl

/-- The action run of a state in the tables of a draft holds the state's entries. -/
theorem exists_actionRun_of_layOut (h : d.layOut = .ok t)
    (hterms : ∀ e ∈ d.actions.toList, e.term ≠ endMark) (hsize : t.actions.size < UInt32.size)
    (hs : state.toNat < t.stateCount) :
    ∃ run rest, t.actionRun state = .ok run ∧ run.ending = .ok rest ∧
      run.entries.map (fun e => (e.1, Action.decode e.2)) =
        (d.actionsOf state.toNat).map fun e => (e.term, .ok e.action) := by
  have hcount := stateCount_of_layOut h
  obtain ⟨l, hstorage, -, hcheck, -, hlaid⟩ := laid_of_layOut h
  obtain ⟨_, cells, a, _, -, hcells, hhas⟩ := hlaid state.toNat (hcount ▸ hs)
  obtain ⟨entries, rfl, hdecode⟩ := exists_words_of_actionRun hcells
  obtain ⟨run, rest, hrun, hend, -⟩ := Storage.exists_actionRun hcheck hs
  refine ⟨run, rest, hrun, hend, ?_⟩
  obtain ⟨place, hplace, rfl⟩ := exists_of_map_eq_ok hrun
  rw [Storage.actionPlace, recordWord_eq (congrArg Storage.states hstorage) hhas.action_offset]
    at hplace
  have hactions : t.actions = l.actions := congrArg Storage.actions hstorage
  have hkeys : ∀ e ∈ entries, e.1 ≠ endMark := by
    intro e he
    have hmem : (e.1, Action.decode e.2) ∈
        (d.actionsOf state.toNat).map fun e => (e.term, Except.ok e.action) :=
      hdecode ▸ List.mem_map_of_mem he
    obtain ⟨recorded, hrecorded, heq⟩ := List.mem_map.mp hmem
    rw [← congrArg Prod.fst heq]
    exact hterms recorded (List.mem_filter.mp hrecorded).1
  rw [entries_of_placeOf (k := 2) Run.reads_nextPair (fun _ => rfl)
    CellReader.wordCells_injective hplace hend (hactions ▸ hhas.action_cells) hkeys hsize]
  exact hdecode

theorem exists_gotoRun_of_layOut (h : d.layOut = .ok t)
    (hterms : ∀ e ∈ d.gotos.toList, e.term ≠ endMark) (hsize : t.gotos.size < UInt32.size)
    (hs : state.toNat < t.stateCount) :
    ∃ run rest, t.gotoRun state = .ok run ∧ run.ending = .ok rest ∧
      run.entries = (d.gotosOf state.toNat).map fun e => (e.term, e.target) := by
  have hcount := stateCount_of_layOut h
  obtain ⟨l, hstorage, -, hcheck, -, hlaid⟩ := laid_of_layOut h
  obtain ⟨_, _, _, g, -, -, hhas⟩ := hlaid state.toNat (hcount ▸ hs)
  obtain ⟨run, rest, hrun, hend, -⟩ := Storage.exists_gotoRun hcheck hs
  refine ⟨run, rest, hrun, hend, ?_⟩
  obtain ⟨place, hplace, rfl⟩ := exists_of_map_eq_ok hrun
  rw [Storage.gotoPlace, recordWord_eq (congrArg Storage.states hstorage) hhas.goto_offset]
    at hplace
  have hgotos : t.gotos = l.gotos := congrArg Storage.gotos hstorage
  have hcells := hgotos ▸ hhas.goto_cells
  rw [gotoRun_eq_cells] at hcells
  refine entries_of_placeOf (k := 1) Run.reads_nextValue (fun _ => rfl) ?_ hplace hend hcells ?_
    hsize
  · exact fun _ _ heq => (List.cons.inj heq).1
  · rw [List.forall_mem_map]
    exact fun e he => hterms e (List.mem_filter.mp he).1

theorem runs_of_layOut (h : d.layOut = .ok t) :
    Specializations.runs t.specializations = .ok d.readingRuns := by
  obtain ⟨l, hstorage, -, hcheck, -⟩ := laid_of_layOut h
  have hcells : t.specializations.toList = d.readingRuns.flatMap Specializations.runCells := by
    rw [hstorage]
  obtain ⟨rs, hrs, hstored⟩ := ((Storage.check_eq_ok_iff _ _).mp hcheck).specializations
  obtain rfl := Specializations.eq_of_flatMap_runCells hstored (hcells.symm.trans hrs)
  exact Specializations.runs_eq_ok_iff.mpr ⟨hcells, hstored⟩

end ReadBack

end Draft

end LRMachine
