import LRMachine.Proofs.Readings

/-!
# The scan for entries

A table of specializations is checked once, cell by cell, and searched for the entries of a raw
term without any check: `seek` goes over the places of the table, two cells at a time inside a run,
to the first key that is the raw term, and an `EntryCursor` takes the entries from there. `entries`
gives the same entries as a list, on all arrays (`answer_cursor`). On a table that the check
accepts, the search takes the places apart as the check does: it looks for keys where runs open and
nowhere else, and finds the first run of each raw term (`scan_of_check`).
-/

namespace LRMachine

namespace Specializations

variable {cells : Array UInt16} {raw : Term}

/-! ## The scan by places -/

/-- The place of the end mark of a run, or behind the cells, from a place behind its key on; each
entry takes two cells. -/
def runEnd (cells : Array UInt16) (place : Nat) : Nat :=
  if h : place < cells.size then
    if cells[place] = endMark then place else runEnd cells (place + 2)
  else place
termination_by cells.size - place

theorem le_runEnd (cells : Array UInt16) (place : Nat) : place ≤ runEnd cells place := by
  fun_induction runEnd cells place with
  | case1 => exact Nat.le_refl _
  | case2 place _ _ ih => omega
  | case3 => exact Nat.le_refl _

/-- The place behind the first key that is the raw term, from the opening of a run on; the end of
the cells if there is none. -/
def seek (cells : Array UInt16) (raw : Term) (place : Nat) : Nat :=
  if h : place < cells.size then
    if cells[place] = raw then place + 1 else seek cells raw (runEnd cells (place + 1) + 1)
  else cells.size
termination_by cells.size - place
decreasing_by
  have := le_runEnd cells (place + 1)
  omega

/-- A place in a table from which entries are taken one by one. -/
structure EntryCursor where
  cells : Array UInt16
  place : Nat

namespace EntryCursor

/-- Takes an entry. At the end mark, and where fewer than two cells are left, there is none and the
place is kept. -/
def next (c : EntryCursor) : Option Specialization × EntryCursor :=
  match c.cells[c.place]?, c.cells[c.place + 1]? with
  | some term, some kind =>
    if term = endMark then (none, c)
    else (some ⟨term, .ofCheckedCell kind⟩, { c with place := c.place + 2 })
  | _, _ => (none, c)

/-- The answer to a call of `next` behind `n` others. -/
def answer (c : EntryCursor) : Nat → Option Specialization
  | 0 => c.next.1
  | n + 1 => c.next.2.answer n

end EntryCursor

/-- The cursor in front of the entries of a raw term. -/
def cursor (cells : Array UInt16) (raw : Term) : EntryCursor := ⟨cells, seek cells raw 0⟩

/-- The scan looks for the raw term in the cell at a place: at the first one, and behind each run
whose key is another term. -/
inductive LooksAt (cells : Array UInt16) (raw : Term) : Nat → Prop where
  | first (h : 0 < cells.size) : LooksAt cells raw 0
  | behind {place : Nat} (before : LooksAt cells raw place) (hkey : cells[place]? ≠ some raw)
    (h : runEnd cells (place + 1) + 1 < cells.size) :
    LooksAt cells raw (runEnd cells (place + 1) + 1)

/-- Each cell that the scan looks at is one that the search from the front comes to. -/
theorem LooksAt.seek_eq {place : Nat} (h : LooksAt cells raw place) :
    seek cells raw 0 = seek cells raw place := by
  induction h with
  | first => rfl
  | @behind place _ hkey hlt ih =>
    have hplace : place < cells.size := by
      have := le_runEnd cells (place + 1)
      omega
    have hne : ¬ cells[place] = raw := by
      rw [Array.getElem?_eq_getElem hplace] at hkey
      simpa using hkey
    rw [ih, seek, dif_pos hplace, if_neg hne]

/-! ## Places and lists -/

theorem drop_toList_eq_cons {place : Nat} (h : place < cells.size) :
    cells.toList.drop place = cells[place] :: cells.toList.drop (place + 1) := by
  rw [List.drop_eq_getElem_cons (by simpa using h), Array.getElem_toList]

theorem drop_toList_eq_nil (place : Nat) (h : cells.size ≤ place) :
    cells.toList.drop place = [] := List.drop_eq_nil_of_le (by simpa using h)

/-- To skip the rest of a run is to go on behind the place of its end. -/
theorem skip_drop (raw : Term) (place : Nat) :
    skip raw (cells.toList.drop place) =
      scan raw (cells.toList.drop (runEnd cells place + 1)) := by
  fun_induction runEnd cells place with
  | case1 place h hmark =>
    rw [drop_toList_eq_cons h]
    cases cells.toList.drop (place + 1) with
    | nil => rw [skip, scan]; simp
    | cons kind rest => rw [skip, if_pos hmark]
  | case2 place h hmark ih =>
    rw [← ih, drop_toList_eq_cons h]
    by_cases hlast : place + 1 < cells.size
    · rw [drop_toList_eq_cons hlast, skip, if_neg hmark]
    · rw [drop_toList_eq_nil (place + 1) (by omega), drop_toList_eq_nil (place + 2) (by omega)]
      rw [skip, skip] <;> simp
  | case3 place h =>
    rw [drop_toList_eq_nil place (by omega), drop_toList_eq_nil (place + 1) (by omega), skip, scan]
    simp

theorem scan_drop (raw : Term) (place : Nat) :
    scan raw (cells.toList.drop place) =
      takeEntries (cells.toList.drop (seek cells raw place)) := by
  fun_induction seek cells raw place with
  | case1 place h hkey => rw [drop_toList_eq_cons h, scan, if_pos hkey]
  | case2 place h hkey ih => rw [drop_toList_eq_cons h, scan, if_neg hkey, skip_drop, ih]
  | case3 place h =>
    have hend := drop_toList_eq_nil cells.size (Nat.le_refl _)
    rw [drop_toList_eq_nil place (by omega), hend, scan, takeEntries]
    simp

/-! ## The answers of a cursor -/

theorem of_drop_eq_cons {place : Nat} {cell : UInt16} {rest : List UInt16}
    (h : cells.toList.drop place = cell :: rest) :
    cells[place]? = some cell ∧ cells.toList.drop (place + 1) = rest := by
  constructor
  · rw [← Array.getElem?_toList, ← List.head?_drop, h, List.head?_cons]
  · rw [← List.drop_drop, h, List.drop_succ_cons, List.drop_zero]

theorem getElem?_eq_head? (place : Nat) : cells[place]? = (cells.toList.drop place).head? := by
  rw [List.head?_drop, Array.getElem?_toList]

theorem EntryCursor.next_eq_none {place : Nat}
    (h : takeEntries (cells.toList.drop place) = []) :
    (mk cells place).next = (none, mk cells place) := by
  unfold next
  dsimp only
  rw [getElem?_eq_head?, getElem?_eq_head?, ← List.drop_drop]
  match hrest : cells.toList.drop place with
  | [] => rfl
  | [_] => rfl
  | term :: kind :: rest =>
    rw [hrest, takeEntries] at h
    by_cases hmark : term = endMark
    · simp [hmark]
    · rw [if_neg hmark] at h
      cases h

theorem EntryCursor.next_eq_some {place : Nat} {s : Specialization} {found : List Specialization}
    (h : takeEntries (cells.toList.drop place) = s :: found) :
    (mk cells place).next = (some s, mk cells (place + 2)) ∧
      takeEntries (cells.toList.drop (place + 2)) = found := by
  unfold next
  dsimp only
  rw [getElem?_eq_head?, getElem?_eq_head?, ← List.drop_drop, ← List.drop_drop]
  match hrest : cells.toList.drop place with
  | [] => simp [hrest, takeEntries] at h
  | [_] => simp [hrest, takeEntries] at h
  | term :: kind :: rest =>
    rw [hrest, takeEntries] at h
    by_cases hmark : term = endMark
    · rw [if_pos hmark] at h
      cases h
    · rw [if_neg hmark] at h
      obtain ⟨rfl, rfl⟩ := List.cons.inj h
      simp [hmark]

/-- A cursor gives the entries from its place on in order, and then nothing for ever. -/
theorem answer_drop :
    ∀ n place, (EntryCursor.mk cells place).answer n =
      (takeEntries (cells.toList.drop place))[n]? := by
  intro n
  induction n with
  | zero =>
    intro place
    cases hfound : takeEntries (cells.toList.drop place) with
    | nil => rw [EntryCursor.answer, EntryCursor.next_eq_none hfound]; rfl
    | cons s found => rw [EntryCursor.answer, (EntryCursor.next_eq_some hfound).1]; rfl
  | succ n ih =>
    intro place
    cases hfound : takeEntries (cells.toList.drop place) with
    | nil =>
      -- the cursor stays where it is
      rw [EntryCursor.answer, EntryCursor.next_eq_none hfound, ih, hfound]
      rfl
    | cons s found =>
      obtain ⟨hnext, hrest⟩ := EntryCursor.next_eq_some hfound
      rw [EntryCursor.answer, hnext, ih, hrest]
      rfl

theorem answer_cursor (cells : Array UInt16) (raw : Term) (n : Nat) :
    (cursor cells raw).answer n = (entries cells raw)[n]? := by
  rw [cursor, answer_drop, entries, ← scan_drop raw 0, List.drop_zero]

/-! ## The places of runs -/

theorem runEnd_of_endMark {place : Nat} (h : cells[place]? = some endMark) :
    runEnd cells place = place := by
  obtain ⟨hlt, hcell⟩ := Array.getElem?_eq_some_iff.mp h
  rw [runEnd, dif_pos hlt, if_pos hcell]

theorem runEnd_of_ne {place : Nat} {term : Term} (h : cells[place]? = some term)
    (hterm : term ≠ endMark) : runEnd cells place = runEnd cells (place + 2) := by
  obtain ⟨hlt, rfl⟩ := Array.getElem?_eq_some_iff.mp h
  rw [runEnd, dif_pos hlt, if_neg hterm]

theorem runEnd_entryCells {tail : List UInt16} :
    ∀ {found : List Specialization} {place : Nat}, (∀ s ∈ found, s.term ≠ endMark) →
      cells.toList.drop place = entryCells found ++ endMark :: tail →
        runEnd cells place = place + (entryCells found).length := by
  intro found
  induction found with
  | nil => exact fun _ h => runEnd_of_endMark (of_drop_eq_cons h).1
  | cons s found ih =>
    intro place hterms h
    obtain ⟨hs, hrest⟩ := List.forall_mem_cons.mp hterms
    obtain ⟨hterm, h⟩ := of_drop_eq_cons h
    obtain ⟨-, h⟩ := of_drop_eq_cons h
    rw [runEnd_of_ne hterm hs, ih hrest h]
    show place + 2 + (entryCells found).length = place + ((entryCells found).length + 2)
    omega

theorem runEnd_of_run {place : Nat} {run : Term × List Specialization} {tail : List UInt16}
    (hterms : ∀ s ∈ run.2, s.term ≠ endMark)
    (h : cells.toList.drop place = runCells run ++ tail) :
    cells[place]? = some run.1 ∧ runEnd cells (place + 1) + 1 = place + (runCells run).length := by
  have hlength : (runCells run).length = (entryCells run.2).length + 2 := by
    simp [runCells, entryCells]
  have hcells : runCells run ++ tail = run.1 :: (entryCells run.2 ++ endMark :: tail) := by
    simp [runCells, entryCells]
  rw [hcells] at h
  obtain ⟨hkey, h⟩ := of_drop_eq_cons h
  refine ⟨hkey, ?_⟩
  rw [runEnd_entryCells hterms h, hlength]
  omega

theorem seek_append {tail : List UInt16} :
    ∀ {before : List (Term × List Specialization)} {place : Nat}, (∀ run ∈ before, Stored run) →
      raw ∉ before.map Prod.fst → cells.toList.drop place = before.flatMap runCells ++ tail →
        seek cells raw place = seek cells raw (place + (before.flatMap runCells).length) := by
  intro before
  induction before with
  | nil => exact fun _ _ _ => rfl
  | cons run before ih =>
    intro place hall habsent h
    obtain ⟨hrun, hbefore⟩ := List.forall_mem_cons.mp hall
    rw [List.map_cons, List.mem_cons, not_or] at habsent
    obtain ⟨hkey, hothers⟩ := habsent
    rw [List.flatMap_cons, List.append_assoc] at h
    obtain ⟨hcell, hend⟩ := runEnd_of_run (fun s hs => (hrun.2 s hs).2) h
    obtain ⟨hlt, hcell⟩ := Array.getElem?_eq_some_iff.mp hcell
    have hrest : cells.toList.drop (place + (runCells run).length) =
        before.flatMap runCells ++ tail := by
      rw [← List.drop_drop, h, List.drop_left]
    have hne : ¬ cells[place] = raw := fun heq => hkey (heq.symm.trans hcell)
    rw [seek, dif_pos hlt, if_neg hne, hend, ih hbefore hothers hrest, List.flatMap_cons,
      List.length_append, Nat.add_assoc]

/-! ## The scan and the check -/

/-- What the search for a raw term comes to: the place, and the entries there, as a list and one by
one. -/
structure Finds (cells : Array UInt16) (raw : Term) (place : Nat) (found : List Specialization) :
    Prop where
  seek_eq : seek cells raw 0 = place
  entries_eq : entries cells raw = found
  answer_eq : ∀ n, (cursor cells raw).answer n = found[n]?
  first_eq : first? cells raw = found.head?

theorem Finds.of_entries {place : Nat} {found : List Specialization}
    (hseek : seek cells raw 0 = place) (hentries : entries cells raw = found) :
    Finds cells raw place found := by
  refine ⟨hseek, hentries, fun n => ?_, ?_⟩
  · rw [answer_cursor, hentries]
  · rw [first?, hentries]

/-- A run of the table opens at the place. -/
def Opens (rs : List (Term × List Specialization)) (place : Nat) : Prop :=
  ∃ before run after, rs = before ++ run :: after ∧ place = (before.flatMap runCells).length

variable {rs : List (Term × List Specialization)}

theorem finds_of_run (h : runs cells = .ok rs) {before after : List (Term × List Specialization)}
    {found : List Specialization} (hsplit : rs = before ++ (raw, found) :: after)
    (hbefore : raw ∉ before.map Prod.fst) :
    Finds cells raw ((before.flatMap runCells).length + 1) found := by
  obtain ⟨hcells, hall⟩ := runs_eq_ok_iff.mp h
  rw [hsplit, List.flatMap_append, List.flatMap_cons] at hcells
  refine .of_entries ?_ ?_
  · have hstored : ∀ run ∈ before, Stored run := fun run hrun => hall run (by simp [hsplit, hrun])
    rw [seek_append hstored hbefore (by rw [List.drop_zero, hcells]), Nat.zero_add]
    have hfront : cells.toList.drop (before.flatMap runCells).length =
        runCells (raw, found) ++ after.flatMap runCells := by rw [hcells, List.drop_left]
    have hfound : (raw, found) ∈ rs := by simp [hsplit]
    obtain ⟨hcell, -⟩ := runEnd_of_run (fun s hs => ((hall _ hfound).2 s hs).2) hfront
    obtain ⟨hlt, hcell⟩ := Array.getElem?_eq_some_iff.mp hcell
    rw [seek, dif_pos hlt, if_pos hcell]
  · have hlookup : rs.lookup raw = some found := by
      refine List.lookup_eq_some_iff.mpr ⟨before, after, hsplit, fun run hrun => ?_⟩
      have hne : raw ≠ run.1 := fun heq => hbefore (heq ▸ List.mem_map_of_mem hrun)
      simpa using hne
    rw [entries_eq_lookup h, hlookup]
    rfl

theorem finds_nothing (h : runs cells = .ok rs) (habsent : raw ∉ rs.map Prod.fst) :
    Finds cells raw cells.size [] := by
  obtain ⟨hcells, hall⟩ := runs_eq_ok_iff.mp h
  refine .of_entries ?_ ?_
  · have hlength : (rs.flatMap runCells).length = cells.size := by rw [← hcells]; simp
    have hfront : cells.toList.drop 0 = rs.flatMap runCells ++ [] := by
      rw [List.drop_zero, hcells, List.append_nil]
    rw [seek_append hall habsent hfront, Nat.zero_add, hlength, seek, dif_neg (Nat.lt_irrefl _)]
  · have hlookup : rs.lookup raw = none := by
      refine List.lookup_eq_none_iff.mpr fun run hrun => ?_
      have hne : raw ≠ run.1 := fun heq => habsent (heq ▸ List.mem_map_of_mem hrun)
      simpa using hne
    rw [entries_eq_lookup h, hlookup]
    rfl

/-- The scan looks for a key only where a run opens. -/
theorem opens_of_looksAt (h : runs cells = .ok rs) {place : Nat}
    (hlooks : LooksAt cells raw place) : Opens rs place := by
  obtain ⟨hcells, hall⟩ := runs_eq_ok_iff.mp h
  have hsize : cells.size = (rs.flatMap runCells).length := by rw [← hcells]; simp
  induction hlooks with
  | first hlt =>
    cases rs with
    | nil => rw [hsize] at hlt; cases hlt
    | cons run rest => exact ⟨[], run, rest, rfl, rfl⟩
  | @behind place _ _ hlt ih =>
    obtain ⟨before, run, after, hsplit, hplace⟩ := ih
    have hterms : ∀ s ∈ run.2, s.term ≠ endMark :=
      fun s hs => ((hall run (by simp [hsplit])).2 s hs).2
    have hfront : cells.toList.drop place = runCells run ++ after.flatMap runCells := by
      rw [hcells, hsplit, List.flatMap_append, List.flatMap_cons, hplace, List.drop_left]
    obtain ⟨-, hend⟩ := runEnd_of_run hterms hfront
    cases after with
    | nil =>
      -- behind the last run there is no cell
      rw [hend, hsize, hsplit, hplace] at hlt
      simp at hlt
    | cons next rest =>
      refine ⟨before ++ [run], next, rest, by rw [hsplit, List.append_assoc]; rfl, ?_⟩
      rw [hend, hplace, List.flatMap_append, List.length_append, List.flatMap_singleton]

/-- A table that the check accepts is the written form of exactly one list of runs. For every raw
term the scan finds the entries of the first run that belongs to it, in order and nothing behind
them, or nothing if there is no such run; and it takes no cell but the key of a run for a key. -/
theorem scan_of_check (h : check cells = .ok ()) :
    ∃ rs : List (Term × List Specialization),
      (∀ written, cells.toList = written.flatMap runCells ↔ written = rs) ∧
      ∀ raw,
        (∀ before found after, rs = before ++ (raw, found) :: after →
          raw ∉ before.map Prod.fst →
            Finds cells raw ((before.flatMap runCells).length + 1) found) ∧
        (raw ∉ rs.map Prod.fst → Finds cells raw cells.size []) ∧
        ∀ place, LooksAt cells raw place → Opens rs place := by
  obtain ⟨rs, hruns, -⟩ := exists_of_map_eq_ok h
  obtain ⟨hcells, hall⟩ := runs_eq_ok_iff.mp hruns
  refine ⟨rs, fun written => ⟨fun hwritten => ?_, fun heq => heq ▸ hcells⟩, fun raw =>
    ⟨fun before found after => finds_of_run hruns, finds_nothing hruns,
      fun place => opens_of_looksAt hruns⟩⟩
  exact eq_of_flatMap_runCells hall (hwritten.symm.trans hcells)

/-- The term 3 has an empty run and a later one that the scan does not come to; 9 is refined to 5,
and the run of 5 is behind it. -/
def emptyRunFirst : Array UInt16 :=
  #[3, 0xffff, 9, 5, 1, 0xffff, 3, 11, 0, 0xffff, 5, 7, 0, 13, 1, 0xffff]

theorem scan_of_check_emptyRunFirst :
    check emptyRunFirst = .ok () ∧ Finds emptyRunFirst 3 1 [] ∧
      Finds emptyRunFirst 5 11 [⟨7, .replace⟩, ⟨13, .extend⟩] ∧
      Finds emptyRunFirst 0xffff emptyRunFirst.size [] := by
  have hcheck : check emptyRunFirst = .ok () := rfl
  obtain ⟨rs, hunique, hfinds⟩ := scan_of_check hcheck
  obtain rfl := (hunique [(3, []), (9, [⟨5, .extend⟩]), (3, [⟨11, .replace⟩]),
    (5, [⟨7, .replace⟩, ⟨13, .extend⟩])]).mp rfl
  refine ⟨hcheck, (hfinds 3).1 [] [] _ rfl (by decide), ?_, (hfinds 0xffff).2.1 (by decide)⟩
  exact (hfinds 5).1 [(3, []), (9, [⟨5, .extend⟩]), (3, [⟨11, .replace⟩])] _ [] rfl (by decide)

end Specializations

end LRMachine
