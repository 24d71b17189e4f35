import LRMachine.Proofs.CheckedTables

/-!
# The cells of a run

A run is written as its entries in a row, each as the key and the cells of what belongs to it, with
the end mark behind them (`Run.cells`). A reader of what belongs to a key `Reads` such cells if it
reads back what is written and nothing else. With such a reader `Run.read` reads every written run
(`Run.read_cells`), and what it reads to the end was written (`Run.cells_of_read`). Two runs that
are written from the same place on are the same (`Run.eq_of_cells_prefix`).
-/

namespace LRMachine

namespace Cells

variable {c : Cells}

/-- The cells from the place on. -/
def rest (c : Cells) : List UInt16 := c.cells.toList.drop c.position

/-- The place behind the next `n` cells. -/
def past (c : Cells) (n : Nat) : Cells := { c with position := c.position + n }

theorem length_rest (c : Cells) : c.rest.length = c.remaining := by
  rw [rest, List.length_drop, Array.length_toList, remaining]

theorem past_past (c : Cells) (m n : Nat) : (c.past m).past n = c.past (m + n) := by
  simp only [past, Nat.add_assoc]

theorem past_append (c : Cells) (a b : List UInt16) :
    c.past (a ++ b).length = (c.past a.length).past b.length := by
  rw [past_past, List.length_append]

theorem rest_past (c : Cells) (n : Nat) : (c.past n).rest = c.rest.drop n := by
  simp only [rest, past, List.drop_drop]

theorem append_prefix_rest_iff {a b : List UInt16} :
    a ++ b <+: c.rest ↔ a <+: c.rest ∧ b <+: (c.past a.length).rest := by
  rw [rest_past]
  constructor
  · rintro ⟨tail, htail⟩
    rw [← htail, List.append_assoc, List.drop_left]
    exact ⟨List.prefix_append _ _, List.prefix_append _ _⟩
  · rintro ⟨⟨tail, htail⟩, hb⟩
    rw [← htail, List.drop_left] at hb
    rw [← htail]
    exact List.prefix_append_right_inj a |>.mpr hb

theorem rest_eq_append {a : List UInt16} (h : a <+: c.rest) :
    c.rest = a ++ (c.past a.length).rest := by
  rw [rest_past]
  exact (List.prefix_iff_eq_append.mp h).symm

theorem getElem?_position (c : Cells) : c.cells[c.position]? = c.rest.head? := by
  rw [rest, List.head?_drop, Array.getElem?_toList]

end Cells

/-! ## Reading one cell or two -/

namespace CellReader

variable {c c' : Cells}

theorem run_peek (c : Cells) :
    peek c = match c.rest with
      | [] => .error c.unterminated c
      | cell :: _ => .ok cell c := by
  have hcell := c.getElem?_position
  dsimp only [peek, bind, EStateM.bind, get, getThe, MonadStateOf.get, EStateM.get]
  cases hrest : c.rest with
  | nil =>
    rw [hrest] at hcell
    rw [hcell]
    rfl
  | cons cell tail =>
    rw [hrest] at hcell
    rw [hcell]
    rfl

theorem run_nextTerm (c : Cells) :
    nextTerm c = match c.rest with
      | [] => .error c.unterminated c
      | cell :: _ => .ok (if cell = endMark then none else some cell) (c.past 1) := by
  have hrun : nextTerm c = match peek c with
      | .ok cell mid => .ok (if cell = endMark then none else some cell) (mid.past 1)
      | .error e mid => .error e mid := by
    simp only [nextTerm, bind, EStateM.bind]
    cases peek c <;> rfl
  rw [hrun, run_peek]
  cases c.rest <;> rfl

theorem nextTerm_eq_none_iff :
    nextTerm c = .ok none c' ↔ [endMark] <+: c.rest ∧ c' = c.past 1 := by
  rw [run_nextTerm]
  cases c.rest with
  | nil => simp
  | cons cell tail => simp [eq_comm]

theorem nextTerm_eq_some_iff {key : UInt16} :
    nextTerm c = .ok (some key) c' ↔ [key] <+: c.rest ∧ key ≠ endMark ∧ c' = c.past 1 := by
  rw [run_nextTerm]
  cases c.rest with
  | nil => simp
  | cons cell tail =>
    simp only [List.cons_prefix_cons, List.nil_prefix, and_true]
    by_cases hmark : cell = endMark
    · simp only [if_pos hmark, EStateM.Result.ok.injEq, reduceCtorEq, false_and, false_iff]
      rintro ⟨rfl, hne, -⟩
      exact hne hmark
    · simp only [if_neg hmark, EStateM.Result.ok.injEq, Option.some.injEq]
      constructor
      · rintro ⟨rfl, rfl⟩
        exact ⟨rfl, hmark, rfl⟩
      · rintro ⟨rfl, -, rfl⟩
        exact ⟨rfl, rfl⟩

theorem nextValue_eq_ok_iff {value : UInt16} :
    nextValue c = .ok value c' ↔ [value] <+: c.rest ∧ value ≠ endMark ∧ c' = c.past 1 := by
  have hrun : nextValue c = match peek c with
      | .ok cell mid =>
        if cell = endMark then .error (.misplacedTerminator mid.table mid.position) mid
        else .ok cell (mid.past 1)
      | .error e mid => .error e mid := by
    simp only [nextValue, bind, EStateM.bind]
    cases peek c with
    | error e mid => rfl
    | ok cell mid =>
      dsimp only
      split <;> rfl
  rw [hrun, run_peek]
  cases c.rest with
  | nil => simp
  | cons cell tail =>
    simp only [List.cons_prefix_cons, List.nil_prefix, and_true]
    by_cases hmark : cell = endMark
    · simp only [if_pos hmark, reduceCtorEq, false_iff]
      rintro ⟨rfl, hne, -⟩
      exact hne hmark
    · simp only [if_neg hmark, EStateM.Result.ok.injEq]
      constructor
      · rintro ⟨rfl, rfl⟩
        exact ⟨rfl, hmark, rfl⟩
      · rintro ⟨rfl, -, rfl⟩
        exact ⟨rfl, rfl⟩

/-- The two cells of a word. -/
def wordCells (word : UInt32) : List UInt16 := [(Action.split word).1, (Action.split word).2]

theorem wordCells_join (low high : UInt16) : wordCells (Action.join low high) = [low, high] := by
  rw [wordCells, Action.split_join]

theorem wordCells_injective : Function.Injective wordCells := by
  intro a b h
  obtain ⟨hlow, hhigh⟩ := List.cons_eq_cons.mp h
  rw [← Action.join_split a, ← Action.join_split b, hlow, (List.cons_eq_cons.mp hhigh).1]

/-- Neither cell of a word is the end mark. -/
def Storable (word : UInt32) : Prop :=
  (Action.split word).1 ≠ endMark ∧ (Action.split word).2 ≠ endMark

/-- A word is read as two values, where two cells are left. -/
theorem run_nextPair (c : Cells) :
    (2 ≤ c.remaining ∧ nextPair c = (do
      let low ← nextValue
      let high ← nextValue
      pure (Action.join low high) : CellReader UInt32) c) ∨
    c.remaining < 2 ∧ ∃ e, nextPair c = .error e c := by
  dsimp only [nextPair, bind, EStateM.bind, get, getThe, MonadStateOf.get, EStateM.get]
  rcases hleft : c.remaining with _ | _ | n
  · exact .inr ⟨by omega, _, rfl⟩
  · exact .inr ⟨by omega, _, rfl⟩
  · exact .inl ⟨by omega, rfl⟩

theorem nextPair_eq_ok_iff {word : UInt32} :
    nextPair c = .ok word c' ↔ wordCells word <+: c.rest ∧ Storable word ∧ c' = c.past 2 := by
  constructor
  · intro h
    rcases run_nextPair c with ⟨-, hrun⟩ | ⟨-, e, hrun⟩
    · rw [hrun] at h
      obtain ⟨low, mid, hlow, h⟩ := exists_of_run_bind_eq_ok h
      obtain ⟨high, last, hhigh, hpure⟩ := exists_of_run_bind_eq_ok h
      cases hpure
      obtain ⟨hlowCell, hlowMark, rfl⟩ := nextValue_eq_ok_iff.mp hlow
      obtain ⟨hhighCell, hhighMark, rfl⟩ := nextValue_eq_ok_iff.mp hhigh
      refine ⟨?_, ?_, c.past_past 1 1⟩
      · rw [wordCells_join]
        exact Cells.append_prefix_rest_iff (a := [low]).mpr ⟨hlowCell, hhighCell⟩
      · rw [Storable, Action.split_join]
        exact ⟨hlowMark, hhighMark⟩
    · rw [hrun] at h
      cases h
  · rintro ⟨hcells, ⟨hlowMark, hhighMark⟩, rfl⟩
    have hlength := hcells.length_le
    rw [Cells.length_rest] at hlength
    rcases run_nextPair c with ⟨-, hrun⟩ | ⟨hshort, -⟩
    · obtain ⟨hlow, hhigh⟩ := Cells.append_prefix_rest_iff (a := [_]).mp hcells
      have hlow : nextValue c = .ok _ (c.past 1) :=
        nextValue_eq_ok_iff.mpr ⟨hlow, hlowMark, rfl⟩
      have hhigh : nextValue (c.past 1) = .ok _ ((c.past 1).past 1) :=
        nextValue_eq_ok_iff.mpr ⟨hhigh, hhighMark, rfl⟩
      rw [hrun]
      simp only [bind, EStateM.bind, hlow, hhigh, pure, EStateM.pure, Action.join_split,
        Cells.past_past]
    · have : (wordCells word).length = 2 := rfl
      omega

end CellReader

/-! ## Written runs -/

namespace Run

variable {α : Type}

/-- The cells of a run; `spell` gives the cells of what belongs to a key. -/
def cells (spell : α → List UInt16) (entries : List (UInt16 × α)) : List UInt16 :=
  entries.flatMap (fun e => e.1 :: spell e.2) ++ [endMark]

/-- The reader of what belongs to a key reads back what is written, if it passes `P` under the key,
and nothing else. -/
def Reads (entry : UInt16 → CellReader α) (spell : α → List UInt16) (P : UInt16 → α → Prop) :
    Prop :=
  ∀ key c v c', entry key c = .ok v c' ↔
    spell v <+: c.rest ∧ P key v ∧ c' = c.past (spell v).length

section

variable {entry : UInt16 → CellReader α} {spell : α → List UInt16} {P : UInt16 → α → Prop}

theorem cells_cons (spell : α → List UInt16) (key : UInt16) (v : α) (rest : List (UInt16 × α)) :
    cells spell ((key, v) :: rest) = [key] ++ (spell v ++ cells spell rest) := by
  simp [cells]

theorem length_lt_length_cells (spell : α → List UInt16) (entries : List (UInt16 × α)) :
    entries.length < (cells spell entries).length := by
  induction entries with
  | nil => simp [cells]
  | cons e rest ih =>
    obtain ⟨key, v⟩ := e
    rw [cells_cons]
    simp only [List.length_append, List.length_cons, List.length_nil]
    omega

/-- A written run is read to its end. -/
theorem read_cells (hreads : Reads entry spell P) :
    ∀ entries n c, entries.length < n → cells spell entries <+: c.rest →
      (∀ e ∈ entries, e.1 ≠ endMark ∧ P e.1 e.2) →
        read entry n c = ⟨entries, .ok (c.past (cells spell entries).length)⟩ := by
  intro entries
  induction entries with
  | nil =>
    intro n c hn hcells _
    cases n with
    | zero => cases hn
    | succ n =>
      have hmark : CellReader.nextTerm c = .ok none (c.past 1) :=
        CellReader.nextTerm_eq_none_iff.mpr ⟨hcells, rfl⟩
      simp only [read, hmark]
      rfl
  | cons e rest ih =>
    intro n c hn hcells hall
    obtain ⟨key, v⟩ := e
    cases n with
    | zero => cases hn
    | succ n =>
      obtain ⟨⟨hkey, hv⟩, hrest⟩ := List.forall_mem_cons.mp hall
      rw [cells_cons] at hcells ⊢
      obtain ⟨hfirst, hcells⟩ := Cells.append_prefix_rest_iff.mp hcells
      obtain ⟨hspell, hcells⟩ := Cells.append_prefix_rest_iff.mp hcells
      have hterm : CellReader.nextTerm c = .ok (some key) (c.past 1) :=
        CellReader.nextTerm_eq_some_iff.mpr ⟨hfirst, hkey, rfl⟩
      have hvalue : entry key (c.past 1) = .ok v ((c.past 1).past (spell v).length) :=
        (hreads key _ v _).mpr ⟨hspell, hv, rfl⟩
      have htail : read entry n ((c.past 1).past (spell v).length) = ⟨rest, .ok _⟩ :=
        ih n _ (Nat.lt_of_succ_lt_succ hn) hcells hrest
      simp only [read, hterm, hvalue, htail]
      rw [Cells.past_append, Cells.past_append]
      rfl

/-- A run that is read to its end was written there. -/
theorem cells_of_read (hreads : Reads entry spell P) :
    ∀ n c c', (read entry n c).ending = .ok c' →
      cells spell (read entry n c).entries <+: c.rest ∧
      (∀ e ∈ (read entry n c).entries, e.1 ≠ endMark ∧ P e.1 e.2) ∧
      c' = c.past (cells spell (read entry n c).entries).length := by
  intro n
  induction n with
  | zero => intro c c' h; cases h
  | succ n ih =>
    intro c c' h
    simp only [read] at h ⊢
    cases hkey : CellReader.nextTerm c with
    | error e d => simp [hkey] at h
    | ok key? d =>
      cases key? with
      | none =>
        obtain ⟨hfirst, rfl⟩ := CellReader.nextTerm_eq_none_iff.mp hkey
        simp only [hkey, Except.ok.injEq] at h ⊢
        exact ⟨hfirst, by simp, h.symm⟩
      | some key =>
        obtain ⟨hfirst, hmark, rfl⟩ := CellReader.nextTerm_eq_some_iff.mp hkey
        simp only [hkey] at h ⊢
        cases hv : entry key (c.past 1) with
        | error e d => simp [hv] at h
        | ok v d =>
          obtain ⟨hspell, hP, rfl⟩ := (hreads key _ v _).mp hv
          simp only [hv] at h ⊢
          obtain ⟨hcells, hall, rfl⟩ := ih _ c' h
          rw [cells_cons, Cells.past_append, Cells.past_append]
          exact ⟨Cells.append_prefix_rest_iff.mpr
            ⟨hfirst, Cells.append_prefix_rest_iff.mpr ⟨hspell, hcells⟩⟩,
            List.forall_mem_cons.mpr ⟨⟨hmark, hP⟩, hall⟩, rfl⟩

theorem ofCells_cells (hreads : Reads entry spell P) {c : Cells} {entries : List (UInt16 × α)}
    (h : cells spell entries <+: c.rest) (hall : ∀ e ∈ entries, e.1 ≠ endMark ∧ P e.1 e.2) :
    ofCells entry c = ⟨entries, .ok (c.past (cells spell entries).length)⟩ := by
  have hlength := h.length_le
  rw [Cells.length_rest] at hlength
  have hn := Nat.lt_of_lt_of_le (length_lt_length_cells spell entries) hlength
  exact read_cells hreads entries _ c hn h hall

/-- The run at a place is read to its end exactly if one is written there. -/
theorem exists_ending_iff (hreads : Reads entry spell P) (c : Cells) :
    (∃ c', (ofCells entry c).ending = .ok c') ↔
      ∃ entries, cells spell entries <+: c.rest ∧ ∀ e ∈ entries, e.1 ≠ endMark ∧ P e.1 e.2 := by
  constructor
  · rintro ⟨c', h⟩
    obtain ⟨hcells, hall, -⟩ := cells_of_read hreads _ c c' h
    exact ⟨_, hcells, hall⟩
  · rintro ⟨entries, hcells, hall⟩
    exact ⟨_, congrArg ending (ofCells_cells hreads hcells hall)⟩

/-! ### Readers of values -/

theorem reads_nextValue :
    Reads (fun _ => CellReader.nextValue) (fun value => [value]) fun _ value => value ≠ endMark :=
  fun _ _ _ _ => CellReader.nextValue_eq_ok_iff

theorem reads_nextPair :
    Reads (fun _ => CellReader.nextPair) CellReader.wordCells fun _ => CellReader.Storable :=
  fun _ _ _ _ => CellReader.nextPair_eq_ok_iff

theorem Reads.check (hreads : Reads entry spell P) (test : α → Except Error Unit) :
    Reads (fun key => do let v ← entry key; CellReader.check (test v); pure v) spell
      fun key v => P key v ∧ test v = .ok () := by
  intro key c v c'
  constructor
  · intro h
    obtain ⟨v', mid, hv, h⟩ := exists_of_run_bind_eq_ok h
    obtain ⟨u, mid', hcheck, hpure⟩ := exists_of_run_bind_eq_ok h
    obtain ⟨htest, rfl⟩ := CellReader.check_eq_ok hcheck
    cases hpure
    obtain ⟨hspell, hP, hpast⟩ := (hreads key c v c').mp hv
    exact ⟨hspell, ⟨hP, htest⟩, hpast⟩
  · rintro ⟨hspell, ⟨hP, htest⟩, hpast⟩
    have hv := (hreads key c v c').mpr ⟨hspell, hP, hpast⟩
    simp only [bind, EStateM.bind, hv, htest]
    rfl

/-- Where every value takes the same number of cells, the cells determine the run. -/
theorem eq_of_cells_prefix {k : Nat} (hlength : ∀ v, (spell v).length = k)
    (hspell : Function.Injective spell) :
    ∀ {a b : List (UInt16 × α)} {l : List UInt16}, cells spell a <+: l → cells spell b <+: l →
      (∀ e ∈ a, e.1 ≠ endMark) → (∀ e ∈ b, e.1 ≠ endMark) → a = b := by
  intro a
  induction a with
  | nil =>
    intro b l ha hb _ hkeys
    cases b with
    | nil => rfl
    | cons e rest =>
      obtain ⟨tail, rfl⟩ := ha
      -- the end mark of the one run would be a key of the other
      exact absurd (List.cons_prefix_cons.mp hb).1 (hkeys e List.mem_cons_self)
  | cons e rest ih =>
    intro b l ha hb hkeys hkeys'
    cases b with
    | nil =>
      obtain ⟨tail, rfl⟩ := hb
      exact absurd (List.cons_prefix_cons.mp ha).1 (hkeys e List.mem_cons_self)
    | cons e' rest' =>
      obtain ⟨key, v⟩ := e
      obtain ⟨key', v'⟩ := e'
      obtain ⟨tail, rfl⟩ := ha
      obtain ⟨rfl, tail', hsplit⟩ : key' = key ∧
          spell v' ++ cells spell rest' <+: spell v ++ (cells spell rest ++ tail) := by
        simpa [cells_cons] using hb
      rw [List.append_assoc] at hsplit
      obtain ⟨hv, hrest⟩ := List.append_inj hsplit ((hlength v').trans (hlength v).symm)
      have hb : cells spell rest' <+: cells spell rest ++ tail := ⟨tail', hrest⟩
      rw [hspell hv, ih (List.prefix_append _ _) hb (List.forall_mem_cons.mp hkeys).2
        (List.forall_mem_cons.mp hkeys').2]

theorem entries_eq_of_cells {k : Nat} (hreads : Reads entry spell P)
    (hlength : ∀ v, (spell v).length = k) (hspell : Function.Injective spell) {c c' : Cells}
    (hend : (ofCells entry c).ending = .ok c') {entries : List (UInt16 × α)}
    (hcells : cells spell entries <+: c.rest) (hkeys : ∀ e ∈ entries, e.1 ≠ endMark) :
    (ofCells entry c).entries = entries := by
  obtain ⟨hread, hall, -⟩ := cells_of_read hreads _ c c' hend
  exact eq_of_cells_prefix hlength hspell hread hcells (fun e he => (hall e he).1) hkeys

end

end Run

end LRMachine
