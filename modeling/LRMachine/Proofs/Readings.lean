import LRMachine.Proofs.RunCells

/-!
# The readings of a raw term

The checked reading takes a table of specializations apart into runs, and their written forms in a
row are the table again (`runs_eq_ok_iff`); no other runs have the same written form
(`eq_of_flatMap_runCells`). On such a table the plain scan finds the first run of a raw term and
nothing else (`entries_eq_lookup`). No run belongs to a term that every grammar shares or refines
another to one (`given_of_mem_entries`), so the end of input is never read as another term and no
other term as the error term.
-/

namespace LRMachine

/-- A term that a grammar gives out itself: not one that every grammar shares, and not the end
mark. -/
def Term.Given (t : Term) : Prop := t.isReserved = false ∧ t ≠ endMark

namespace Specializations

/-! ## The runs of a checked table -/

variable {c c' : Cells}

theorem checkTerm_eq_ok_iff {t : Term} : checkTerm t = .ok () ↔ t.isReserved = false := by
  unfold checkTerm
  split <;> simp [*]

theorem ofCell_eq_ok_iff {cell : UInt16} {kind : SpecializationKind} :
    SpecializationKind.ofCell cell = .ok kind ↔ cell = kind.toCell := by
  constructor
  · unfold SpecializationKind.ofCell
    intro h
    split at h
    · cases h
      assumption
    · split at h
      · cases h
        assumption
      · cases h
  · rintro rfl
    exact SpecializationKind.ofCell_toCell kind

theorem toCell_ne_endMark (kind : SpecializationKind) : kind.toCell ≠ endMark := by
  cases kind <;> decide

theorem isReserved_toCell (kind : SpecializationKind) : Term.isReserved kind.toCell = true := by
  cases kind <;> rfl

/-- The cell of the kind that follows a refined term. -/
def kindCells (kind : SpecializationKind) : List UInt16 := [kind.toCell]

theorem reads_checkedEntry :
    Run.Reads checkedEntry kindCells fun refined _ => Term.isReserved refined = false := by
  intro refined c kind c'
  constructor
  · intro h
    obtain ⟨_, mid, hget, h⟩ := exists_of_run_bind_eq_ok h
    cases hget
    split at h
    · cases h
    · obtain ⟨u, last, hcheck, h⟩ := exists_of_run_bind_eq_ok h
      obtain ⟨hterm, rfl⟩ := CellReader.check_eq_ok hcheck
      obtain ⟨cell, next, hvalue, h⟩ := exists_of_run_bind_eq_ok h
      obtain ⟨hcell, -, rfl⟩ := CellReader.nextValue_eq_ok_iff.mp hvalue
      obtain ⟨hkind, rfl⟩ := CellReader.check_eq_ok h
      rw [ofCell_eq_ok_iff.mp hkind] at hcell
      exact ⟨hcell, checkTerm_eq_ok_iff.mp hterm, rfl⟩
  · rintro ⟨hcell, hterm, rfl⟩
    have hlength := hcell.length_le
    rw [Cells.length_rest] at hlength
    have hleft : c.remaining ≠ 0 := Nat.pos_iff_ne_zero.mp hlength
    have hvalue : CellReader.nextValue c = .ok kind.toCell (c.past 1) :=
      CellReader.nextValue_eq_ok_iff.mpr ⟨hcell, toCell_ne_endMark kind, rfl⟩
    show (if c.remaining = 0 then throw (.oddCells c.table (c.position - 1))
      else do
        CellReader.check (checkTerm refined)
        let cell ← CellReader.nextValue
        CellReader.check (SpecializationKind.ofCell cell) : CellReader SpecializationKind) c = _
    rw [if_neg hleft, checkTerm_eq_ok_iff.mpr hterm]
    simp only [bind, EStateM.bind, CellReader.check, pure, EStateM.pure, hvalue,
      SpecializationKind.ofCell_toCell]
    rfl

theorem checkedRaw_eq_ok_iff {raw : Term} :
    checkedRaw c = .ok raw c' ↔
      [raw] <+: c.rest ∧ raw.Given ∧ c' = { c.past 1 with owner := raw.toNat } := by
  constructor
  · intro h
    obtain ⟨value, mid, hvalue, h⟩ := exists_of_run_bind_eq_ok h
    obtain ⟨hcell, hmark, rfl⟩ := CellReader.nextValue_eq_ok_iff.mp hvalue
    obtain ⟨u, last, hcheck, h⟩ := exists_of_run_bind_eq_ok h
    obtain ⟨hterm, rfl⟩ := CellReader.check_eq_ok hcheck
    obtain ⟨_, next, howner, hpure⟩ := exists_of_run_bind_eq_ok h
    cases howner
    cases hpure
    exact ⟨hcell, ⟨checkTerm_eq_ok_iff.mp hterm, hmark⟩, rfl⟩
  · rintro ⟨hcell, ⟨hterm, hmark⟩, rfl⟩
    have hvalue := CellReader.nextValue_eq_ok_iff.mpr ⟨hcell, hmark, rfl⟩
    simp only [checkedRaw, bind, EStateM.bind, hvalue, checkTerm_eq_ok_iff.mpr hterm]
    rfl

/-- A run as a table may hold it: the raw term and the refined terms are the grammar's own. -/
def Stored (run : Term × List Specialization) : Prop := run.1.Given ∧ ∀ s ∈ run.2, s.term.Given

/-- The cells of entries. -/
def entryCells (entries : List Specialization) : List UInt16 :=
  entries.flatMap fun s => [s.term, s.kind.toCell]

/-- The run of a raw term with the given refined terms and kinds. -/
def runOf (raw : Term) (entries : List (Term × SpecializationKind)) :
    Term × List Specialization :=
  (raw, entries.map fun (term, kind) => ⟨term, kind⟩)

theorem exists_eq_runOf (run : Term × List Specialization) :
    ∃ entries, run = runOf run.1 entries :=
  ⟨run.2.map fun s => (s.term, s.kind), by simp [runOf, Function.comp_def]⟩

/-- Behind its raw term, a run of specializations is a run under the refined terms. -/
theorem runCells_runOf (raw : Term) (entries : List (Term × SpecializationKind)) :
    runCells (runOf raw entries) = [raw] ++ Run.cells kindCells entries := by
  rw [runOf, runCells, Run.cells, List.flatMap_map]
  rfl

theorem stored_runOf_iff (raw : Term) (entries : List (Term × SpecializationKind)) :
    Stored (runOf raw entries) ↔
      raw.Given ∧ ∀ e ∈ entries, e.1 ≠ endMark ∧ Term.isReserved e.1 = false := by
  simp only [Stored, runOf, List.forall_mem_map, Term.Given, and_comm]

/-- The place behind a run, where its raw term is still the owner. -/
def behind (run : Term × List Specialization) (c : Cells) : Cells :=
  { c.past (runCells run).length with owner := run.1.toNat }

theorem past_kindCells (raw : Term) (entries : List (Term × SpecializationKind)) (c : Cells) :
    Cells.past { c.past 1 with owner := raw.toNat } (Run.cells kindCells entries).length =
      behind (runOf raw entries) c := by
  rw [behind, runCells_runOf, Cells.past_append]
  rfl

/-- A run that is read was written at the place, and the reading goes on behind it. -/
theorem exists_run_of_readRuns {n : Nat} {rs : List (Term × List Specialization)}
    (hleft : c.remaining ≠ 0) (h : readRuns (n + 1) c = .ok rs) :
    ∃ run rs', rs = run :: rs' ∧ runCells run <+: c.rest ∧ Stored run ∧
      readRuns n (behind run c) = .ok rs' := by
  rw [readRuns, if_neg hleft] at h
  split at h
  · cases h
  · rename_i raw d hraw
    obtain ⟨hcell, hgiven, rfl⟩ := checkedRaw_eq_ok_iff.mp hraw
    dsimp only at h
    split at h
    · cases h
    · rename_i d hending
      obtain ⟨hcells, hterms, rfl⟩ := Run.cells_of_read reads_checkedEntry _ _ _ hending
      rw [past_kindCells] at h
      obtain ⟨rs', htail, rfl⟩ := exists_of_map_eq_ok h
      refine ⟨_, rs', rfl, ?_, (stored_runOf_iff raw _).mpr ⟨hgiven, hterms⟩, htail⟩
      exact (runCells_runOf raw _).symm ▸ Cells.append_prefix_rest_iff.mpr ⟨hcell, hcells⟩

theorem readRuns_succ_of_run {run : Term × List Specialization} (h : runCells run <+: c.rest)
    (hstored : Stored run) (n : Nat) :
    readRuns (n + 1) c = (readRuns n (behind run c)).map (run :: ·) := by
  obtain ⟨entries, hrun⟩ := exists_eq_runOf run
  rw [hrun] at h hstored ⊢
  obtain ⟨hgiven, hterms⟩ := (stored_runOf_iff _ _).mp hstored
  rw [runCells_runOf] at h
  obtain ⟨hcell, hcells⟩ := Cells.append_prefix_rest_iff.mp h
  have hleft : c.remaining ≠ 0 := by
    have hlength := hcell.length_le
    rw [Cells.length_rest] at hlength
    exact Nat.pos_iff_ne_zero.mp hlength
  have hraw := checkedRaw_eq_ok_iff.mpr ⟨hcell, hgiven, rfl⟩
  have hread := Run.ofCells_cells (c := { c.past 1 with owner := run.1.toNat })
    reads_checkedEntry hcells hterms
  rw [readRuns, if_neg hleft]
  simp only [hraw, hread]
  rw [past_kindCells]
  rfl

theorem rest_eq_behind {run : Term × List Specialization} (h : runCells run <+: c.rest) :
    c.rest = runCells run ++ (behind run c).rest :=
  Cells.rest_eq_append h

theorem readRuns_of_remaining_eq_zero (h : c.remaining = 0) (n : Nat)
    (rs : List (Term × List Specialization)) :
    readRuns n c = .ok rs ↔ c.rest = rs.flatMap runCells ∧ ∀ run ∈ rs, Stored run := by
  have hnil : c.rest = [] := List.length_eq_zero_iff.mp (by rw [Cells.length_rest, h])
  have hread : readRuns n c = .ok [] := by
    cases n with
    | zero => rfl
    | succ n => rw [readRuns, if_pos h]
  rw [hread, hnil]
  cases rs with
  | nil => simp
  | cons run rs => simp [runCells]

/-- Runs are read exactly where they are written in a row up to the last cell. -/
theorem readRuns_eq_ok_iff :
    ∀ n (c : Cells) rs, c.remaining ≤ n →
      (readRuns n c = .ok rs ↔ c.rest = rs.flatMap runCells ∧ ∀ run ∈ rs, Stored run) := by
  intro n
  induction n with
  | zero => exact fun c rs hn => readRuns_of_remaining_eq_zero (Nat.le_zero.mp hn) 0 rs
  | succ n ih =>
    intro c rs hn
    by_cases hleft : c.remaining = 0
    · exact readRuns_of_remaining_eq_zero hleft _ rs
    · -- a run has a cell at least, so fewer are left behind it
      have hshorter : ∀ {run}, runCells run <+: c.rest → (behind run c).remaining ≤ n := by
        intro run hrun
        have hlength := congrArg List.length (rest_eq_behind hrun)
        simp only [List.length_append, Cells.length_rest, runCells, List.length_cons] at hlength
        omega
      constructor
      · intro h
        obtain ⟨run, rs', rfl, hrun, hstored, htail⟩ := exists_run_of_readRuns hleft h
        obtain ⟨hcells, hall⟩ := (ih _ rs' (hshorter hrun)).mp htail
        rw [rest_eq_behind hrun, hcells]
        exact ⟨rfl, List.forall_mem_cons.mpr ⟨hstored, hall⟩⟩
      · rintro ⟨hcells, hall⟩
        cases rs with
        | nil => exact absurd (c.length_rest.symm.trans (congrArg List.length hcells)) hleft
        | cons run rs' =>
          obtain ⟨hstored, hall⟩ := List.forall_mem_cons.mp hall
          have hrun : runCells run <+: c.rest := ⟨_, hcells.symm⟩
          have hrest : (behind run c).rest = rs'.flatMap runCells :=
            List.append_cancel_left ((rest_eq_behind hrun).symm.trans hcells)
          rw [readRuns_succ_of_run hrun hstored,
            (ih _ rs' (hshorter hrun)).mpr ⟨hrest, hall⟩]
          rfl

theorem runs_eq_ok_iff {cells : Array UInt16} {rs : List (Term × List Specialization)} :
    runs cells = .ok rs ↔ cells.toList = rs.flatMap runCells ∧ ∀ run ∈ rs, Stored run :=
  readRuns_eq_ok_iff cells.size ⟨cells, 0, .specializations, 0⟩ rs (Nat.sub_le _ _)

/-! ## One list of runs -/

theorem toCell_injective : Function.Injective SpecializationKind.toCell := by
  intro a b h
  have hkind := congrArg SpecializationKind.ofCell h
  rw [SpecializationKind.ofCell_toCell, SpecializationKind.ofCell_toCell] at hkind
  exact Except.ok.inj hkind

/-- Entries that are written in the cells of stored ones are those, if no kind can be taken for the
cell behind them. -/
theorem eq_of_entryCells_append {tail tail' : List UInt16}
    (htail : ∀ cell ∈ tail'.head?, Term.isReserved cell = false) :
    ∀ {stored written : List Specialization}, (∀ s ∈ stored, s.term.Given) →
      entryCells written ++ endMark :: tail = entryCells stored ++ endMark :: tail' →
        written = stored ∧ tail = tail' := by
  intro stored
  induction stored with
  | nil =>
    intro written _ h
    cases written with
    | nil => exact ⟨rfl, (List.cons.inj h).2⟩
    | cons s written =>
      -- the end mark would be a refined term, and its kind would come behind the end mark
      have hkind : s.kind.toCell ∈ tail'.head? := by
        rw [← (List.cons.inj h).2]
        rfl
      exact absurd (htail _ hkind) (by simp [isReserved_toCell])
  | cons s stored ih =>
    intro written hgiven h
    obtain ⟨hs, hstored⟩ := List.forall_mem_cons.mp hgiven
    cases written with
    | nil => exact absurd (List.cons.inj h).1.symm hs.2
    | cons s' written =>
      obtain ⟨hterm, h⟩ := List.cons.inj h
      obtain ⟨hkind, h⟩ := List.cons.inj h
      obtain ⟨rfl, rfl⟩ := ih hstored h
      obtain ⟨term, kind⟩ := s
      obtain ⟨term', kind'⟩ := s'
      obtain rfl : term' = term := hterm
      obtain rfl := toCell_injective hkind
      exact ⟨rfl, rfl⟩

theorem flatMap_runCells_cons (run : Term × List Specialization)
    (rs : List (Term × List Specialization)) :
    (run :: rs).flatMap runCells =
      run.1 :: (entryCells run.2 ++ endMark :: rs.flatMap runCells) := by
  rw [List.flatMap_cons, runCells, List.append_assoc]
  rfl

theorem eq_of_flatMap_runCells :
    ∀ {stored written : List (Term × List Specialization)}, (∀ run ∈ stored, Stored run) →
      written.flatMap runCells = stored.flatMap runCells → written = stored := by
  intro stored
  induction stored with
  | nil =>
    intro written _ h
    cases written with
    | nil => rfl
    | cons run written => cases h
  | cons run stored ih =>
    intro written hall h
    obtain ⟨hrun, hstored⟩ := List.forall_mem_cons.mp hall
    cases written with
    | nil => cases h
    | cons run' written =>
      rw [flatMap_runCells_cons, flatMap_runCells_cons] at h
      obtain ⟨hraw, h⟩ := List.cons.inj h
      have hnext : ∀ cell ∈ (stored.flatMap runCells).head?, Term.isReserved cell = false := by
        cases stored with
        | nil => simp
        | cons next stored =>
          rw [flatMap_runCells_cons]
          simpa using (hstored next List.mem_cons_self).1.1
      obtain ⟨hentries, hrest⟩ := eq_of_entryCells_append hnext hrun.2 h
      rw [Prod.ext hraw hentries, ih hstored hrest]

/-! ## The plain scan -/

theorem ofCheckedCell_toCell (kind : SpecializationKind) :
    SpecializationKind.ofCheckedCell kind.toCell = kind := by
  cases kind <;> rfl

theorem takeEntries_entryCells (tail : List UInt16) :
    ∀ entries : List Specialization, (∀ s ∈ entries, s.term ≠ endMark) →
      takeEntries (entryCells entries ++ endMark :: tail) = entries := by
  intro entries
  induction entries with
  | nil =>
    intro _
    cases tail with
    | nil => rfl
    | cons => simp [entryCells, takeEntries]
  | cons s entries ih =>
    intro h
    have hs : s.term ≠ endMark := h s List.mem_cons_self
    show takeEntries (s.term :: s.kind.toCell :: (entryCells entries ++ endMark :: tail)) = _
    rw [takeEntries, if_neg hs, ofCheckedCell_toCell,
      ih fun s' hs' => h s' (List.mem_cons_of_mem _ hs')]

theorem skip_entryCells (raw : Term) (tail : List UInt16) :
    ∀ entries : List Specialization, (∀ s ∈ entries, s.term ≠ endMark) →
      skip raw (entryCells entries ++ endMark :: tail) = scan raw tail := by
  intro entries
  induction entries with
  | nil =>
    intro _
    cases tail with
    | nil => simp [entryCells, skip, scan]
    | cons => simp [entryCells, skip]
  | cons s entries ih =>
    intro h
    have hs : s.term ≠ endMark := h s List.mem_cons_self
    show skip raw (s.term :: s.kind.toCell :: (entryCells entries ++ endMark :: tail)) = _
    rw [skip, if_neg hs, ih fun s' hs' => h s' (List.mem_cons_of_mem _ hs')]

/-- A scan from the opening of a run on finds the first run of the raw term. -/
theorem scan_flatMap (raw : Term) :
    ∀ rs : List (Term × List Specialization), (∀ run ∈ rs, Stored run) →
      scan raw (rs.flatMap runCells) = (rs.lookup raw).getD [] := by
  intro rs
  induction rs with
  | nil => intro _; simp [scan]
  | cons run rs ih =>
    intro h
    have hterms : ∀ s ∈ run.2, s.term ≠ endMark :=
      fun s hs => ((h run List.mem_cons_self).2 s hs).2
    obtain ⟨key, entries⟩ := run
    rw [flatMap_runCells_cons, scan]
    by_cases hkey : key = raw
    · rw [if_pos hkey, takeEntries_entryCells _ _ hterms, hkey, List.lookup_cons_self]
      rfl
    · have hbeq : (raw == key) = false := by simpa using fun heq => hkey heq.symm
      rw [if_neg hkey, skip_entryCells _ _ _ hterms, ih fun run' hrun => h run' (by simp [hrun]),
        List.lookup_cons, hbeq]

/-- On a checked table the plain scan finds the entries of the first run of a raw term. -/
theorem entries_eq_lookup {cells : Array UInt16} {rs : List (Term × List Specialization)}
    (h : runs cells = .ok rs) (raw : Term) : entries cells raw = (rs.lookup raw).getD [] := by
  obtain ⟨hcells, hall⟩ := runs_eq_ok_iff.mp h
  rw [entries, hcells]
  exact scan_flatMap raw rs hall

/-- A term that has entries and the terms that it is refined to are given out by the grammar. -/
theorem given_of_mem_entries {cells : Array UInt16} (h : check cells = .ok ()) {raw : Term}
    {s : Specialization} (hs : s ∈ entries cells raw) : raw.Given ∧ s.term.Given := by
  unfold check at h
  cases hruns : runs cells with
  | error e => simp [hruns, Except.map] at h
  | ok rs =>
    rw [entries_eq_lookup hruns] at hs
    cases hfind : rs.lookup raw with
    | none => simp [hfind] at hs
    | some found =>
      obtain ⟨before, after, hsplit, -⟩ := List.lookup_eq_some_iff.mp hfind
      have hmem : (raw, found) ∈ rs := by simp [hsplit]
      have hstored := (runs_eq_ok_iff.mp hruns).2 _ hmem
      exact ⟨hstored.1, hstored.2 s (by simpa [hfind] using hs)⟩

end Specializations

/-! ## Readings in valid tables -/

theorem Tables.Valid.given_of_mem_readings {t : Tables} (h : t.Valid) {raw : Term}
    {s : Specialization} (hs : s ∈ t.readings raw) : raw.Given ∧ s.term.Given := by
  have hcheck := h.check_eq
  unfold Storage.check at hcheck
  obtain ⟨u, hspecial, -⟩ := exists_of_bind_eq_ok hcheck
  exact Specializations.given_of_mem_entries hspecial hs

theorem Tables.Valid.readings_of_isReserved {t : Tables} (h : t.Valid) {raw : Term}
    (hraw : raw.isReserved = true) : t.readings raw = [] := by
  refine List.eq_nil_iff_forall_not_mem.mpr fun s hs => ?_
  have hfree := (h.given_of_mem_readings hs).1.1
  rw [hraw] at hfree
  cases hfree

namespace Storage

/-- A term under which a raw term can be consumed: its own, one that it is specialised to, or the
error term. -/
def Reads (s : Storage) (raw term : Term) : Prop :=
  term = raw ∨ (∃ reading ∈ s.readings raw, reading.term = term) ∨ term = Term.err

theorem term_of_resolve_go {s : Storage} {state : StateId} {raw term : Term} {a : Action} :
    ∀ {readings : List Specialization},
      resolve.go s state raw readings = .ok (some (term, a)) →
        term = raw ∨ ∃ reading ∈ readings, reading.term = term := by
  intro readings
  induction readings with
  | nil =>
    intro h
    unfold resolve.go at h
    obtain ⟨found, -, h⟩ := exists_of_bind_eq_ok h
    cases found with
    | none => cases h
    | some b =>
      cases h
      exact .inl rfl
  | cons reading rest ih =>
    intro h
    unfold resolve.go at h
    obtain ⟨found, -, h⟩ := exists_of_bind_eq_ok h
    cases found with
    | some b =>
      cases h
      exact .inr ⟨reading, List.mem_cons_self, rfl⟩
    | none =>
      cases hkind : reading.kind with
      | replace => simp [hkind] at h
      | extend =>
        simp only [hkind] at h
        rcases ih h with heq | ⟨other, hmem, heq⟩
        · exact .inl heq
        · exact .inr ⟨other, List.mem_cons_of_mem _ hmem, heq⟩

theorem reads_of_resolve {s : Storage} {state : StateId} {raw term : Term} {a : Action}
    (h : s.resolve state raw = .ok (some (term, a))) : s.Reads raw term := by
  rcases term_of_resolve_go h with heq | hreading
  · exact .inl heq
  · exact .inr (.inl hreading)

end Storage

theorem Tables.Valid.ne_err_of_resolve {t : Tables} (h : t.Valid) {state : StateId}
    {raw term : Term} {a : Action} (hresolve : t.resolve state raw = .ok (some (term, a)))
    (hraw : raw ≠ Term.err) : term ≠ Term.err := by
  rcases Storage.term_of_resolve_go hresolve with rfl | ⟨s, hs, rfl⟩
  · exact hraw
  · intro herr
    have hgiven := (h.given_of_mem_readings hs).2.1
    rw [herr] at hgiven
    cases hgiven

/-- The end of input is consumed as itself or as an error. -/
theorem Tables.Valid.eq_of_reads_eof {t : Tables} (h : t.Valid) {term : Term}
    (hreads : t.Reads Term.eof term) : term = Term.eof ∨ term = Term.err := by
  rcases hreads with heq | ⟨reading, hmem, -⟩ | heq
  · exact .inl heq
  · rw [h.readings_of_isReserved rfl] at hmem
    cases hmem
  · exact .inr heq

end LRMachine
