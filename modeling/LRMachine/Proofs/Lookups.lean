import Mathlib.Data.List.Basic
import LRMachine.Proofs.StorageFormat

/-!
# Lookups and what is stored

What a state stores is written in the arrays: from the offset in its record on, keys with their
values up to the first end mark in the place of a key (`Storage.StoresActions`,
`Storage.StoresGotos`). The lookups read the same cells again and stop where they find the key. On
tables that passed the check they are first-match searches of what is stored and have an answer for
every state and term; a state without a record is answered with an error that names it
(`lookups_of_make`).
-/

namespace LRMachine

namespace Run

variable {α : Type}

/-- The entries of the run at the front of cells: up to the first end mark in the place of a key. -/
def WrittenAt (spell : α → List UInt16) (front : List UInt16) (entries : List (UInt16 × α)) :
    Prop :=
  cells spell entries <+: front ∧ ∀ e ∈ entries, e.1 ≠ endMark

instance (spell : α → List UInt16) (front : List UInt16) (entries : List (UInt16 × α)) :
    Decidable (WrittenAt spell front entries) :=
  inferInstanceAs (Decidable (_ ∧ _))

/-- Where a run is read to its end, its entries are the ones that are written, and no others. -/
theorem writtenAt_iff {entry : UInt16 → CellReader α} {spell : α → List UInt16}
    {P : UInt16 → α → Prop} {k : Nat} (hreads : Reads entry spell P)
    (hlength : ∀ v, (spell v).length = k) (hspell : Function.Injective spell) {c c' : Cells}
    (hend : (ofCells entry c).ending = .ok c') (entries : List (UInt16 × α)) :
    WrittenAt spell c.rest entries ↔ entries = (ofCells entry c).entries := by
  constructor
  · rintro ⟨hcells, hkeys⟩
    exact (entries_eq_of_cells hreads hlength hspell hend hcells hkeys).symm
  · rintro rfl
    obtain ⟨hcells, hall, -⟩ := cells_of_read hreads _ c c' hend
    exact ⟨hcells, fun e he => (hall e he).1⟩

end Run

namespace Storage

variable {s : Storage} {n : Nat} {state : StateId}

/-! ## What a state stores -/

/-- The cells of an array from the offset on that stands in a state's record. -/
def CellsFrom (s : Storage) (state : StateId) (field : Nat) (cells : Array UInt16)
    (front : List UInt16) : Prop :=
  ∃ offset : UInt32, s.states[3 * state.toNat + field]? = some offset ∧
    front = cells.toList.drop offset.toNat

/-- The actions that a state stores, under their terms. -/
def StoresActions (s : Storage) (state : StateId) (rows : List (Term × Action)) : Prop :=
  ∃ front words, s.CellsFrom state 1 s.actions front ∧
    Run.WrittenAt CellReader.wordCells front words ∧
    words.map (fun e => (e.1, Action.decode e.2)) = rows.map fun e => (e.1, .ok e.2)

/-- The goto targets that a state stores, under their terms. -/
def StoresGotos (s : Storage) (state : StateId) (targets : List (Term × StateId)) : Prop :=
  ∃ front, s.CellsFrom state 2 s.gotos front ∧
    Run.WrittenAt (fun target => [target]) front targets

/-- The lookups of a state are first-match searches of the given actions and targets, and the
targets in their answers have records. -/
structure AnswersFrom (s : Storage) (state : StateId) (rows : List (Term × Action))
    (targets : List (Term × StateId)) : Prop where
  action_eq : ∀ term, s.action state term = .ok (rows.lookup term)
  actionTerms_eq : s.actionTerms state = .ok (rows.map Prod.fst)
  goto_eq : ∀ term, s.goto state term = .ok (targets.lookup term)
  shift_lt : ∀ term target, s.action state term = .ok (some (.shift target)) →
    target.toNat < s.stateCount
  push_lt : ∀ term target, s.action state term = .ok (some (.push target)) →
    target.toNat < s.stateCount
  goto_lt : ∀ term target, s.goto state term = .ok (some target) → target.toNat < s.stateCount

/-! ## Reading the stored run -/

theorem CellsFrom.unique {field : Nat} {cells : Array UInt16} {front front' : List UInt16}
    (h : s.CellsFrom state field cells front) (h' : s.CellsFrom state field cells front') :
    front' = front := by
  obtain ⟨offset, hrecord, rfl⟩ := h
  obtain ⟨offset', hrecord', rfl⟩ := h'
  rw [Option.some.inj (hrecord'.symm.trans hrecord)]

theorem cellsFrom_of_place {field : Nat} {table : TableKind} {cells : Array UInt16} {place : Cells}
    (h : (do placeOf table cells state (← s.recordWord state field)) = .ok place) :
    s.CellsFrom state field cells place.rest := by
  obtain ⟨offset, hrecord, hplace⟩ := exists_of_bind_eq_ok h
  refine ⟨offset, recordWord_eq_ok_iff.mp hrecord, ?_⟩
  unfold placeOf at hplace
  split at hplace
  · cases hplace
    rfl
  · cases hplace

theorem exists_rows_of_decode :
    ∀ {words : List (Term × UInt32)}, (∀ e ∈ words, ∃ a, Action.decode e.2 = .ok a) →
      ∃ rows : List (Term × Action),
        words.map (fun e => (e.1, Action.decode e.2)) = rows.map fun e => (e.1, .ok e.2) := by
  intro words
  induction words with
  | nil => exact fun _ => ⟨[], rfl⟩
  | cons e words ih =>
    intro h
    obtain ⟨⟨a, ha⟩, hrest⟩ := List.forall_mem_cons.mp h
    obtain ⟨rows, hrows⟩ := ih hrest
    exact ⟨(e.1, a) :: rows, by rw [List.map_cons, List.map_cons, ha, hrows]⟩

theorem map_ok_injective :
    Function.Injective (List.map fun e : Term × Action => (e.1, (.ok e.2 : Except Error Action))) :=
  List.map_injective_iff.mpr fun a b h => by
    obtain ⟨hterm, haction⟩ := Prod.mk.inj h
    exact Prod.ext hterm (Except.ok.inj haction)

/-- A state with a record stores one list of actions, which the lookups search. -/
theorem exists_storesActions (h : s.check n = .ok ()) (hs : state.toNat < s.stateCount) :
    ∃ rows, (∀ rows', s.StoresActions state rows' ↔ rows' = rows) ∧
      (∀ term, s.action state term = .ok (rows.lookup term)) ∧
      s.actionTerms state = .ok (rows.map Prod.fst) := by
  obtain ⟨run, c, hrun, hend, hall⟩ := exists_actionRun h hs
  obtain ⟨rows, hrows⟩ := exists_rows_of_decode fun e he =>
    let ⟨a, ha, _⟩ := (checkAction_eq_ok_iff s e.2).mp (hall e he)
    ⟨a, ha⟩
  have hkeys : run.entries.map Prod.fst = rows.map Prod.fst := by
    simpa [Function.comp_def] using congrArg (List.map Prod.fst) hrows
  refine ⟨rows, fun rows' => ?_, action_eq_lookup hrun hend hrows,
    hkeys ▸ actionTerms_eq_keys hrun hend⟩
  obtain ⟨place, hplace, rfl⟩ := exists_of_map_eq_ok hrun
  have hfront : s.CellsFrom state 1 s.actions place.rest := cellsFrom_of_place hplace
  have hwritten := Run.writtenAt_iff (k := 2) Run.reads_nextPair (fun _ => rfl)
    CellReader.wordCells_injective hend
  constructor
  · rintro ⟨front, words, hcells, hwords, hdecoded⟩
    obtain rfl := hfront.unique hcells
    obtain rfl := (hwritten words).mp hwords
    exact map_ok_injective (hdecoded.symm.trans hrows)
  · rintro rfl
    exact ⟨_, _, hfront, (hwritten _).mpr rfl, hrows⟩

theorem exists_storesGotos (h : s.check n = .ok ()) (hs : state.toNat < s.stateCount) :
    ∃ targets, (∀ targets', s.StoresGotos state targets' ↔ targets' = targets) ∧
      ∀ term, s.goto state term = .ok (targets.lookup term) := by
  obtain ⟨run, c, hrun, hend, -⟩ := exists_gotoRun h hs
  refine ⟨run.entries, fun targets' => ?_, goto_eq_lookup hrun hend⟩
  obtain ⟨place, hplace, rfl⟩ := exists_of_map_eq_ok hrun
  have hfront : s.CellsFrom state 2 s.gotos place.rest := cellsFrom_of_place hplace
  have hwritten := Run.writtenAt_iff (k := 1) Run.reads_nextValue (fun _ => rfl)
    (fun _ _ heq => (List.cons.inj heq).1) hend
  constructor
  · rintro ⟨front, hcells, htargets⟩
    obtain rfl := hfront.unique hcells
    exact (hwritten targets').mp htargets
  · rintro rfl
    exact ⟨_, hfront, (hwritten _).mpr rfl⟩

/-! ## States without a record -/

theorem recordWord_of_le (hwhole : s.states.size = 3 * s.stateCount)
    (hs : s.stateCount ≤ state.toNat) (field : Nat) :
    s.recordWord state field = .error (.unknownState state.toNat) := by
  have hnone : s.states[3 * state.toNat + field]? = none := Array.getElem?_eq_none (by omega)
  rw [recordWord, hnone]

/-- A state has no record. -/
structure Unknown (s : Storage) (state : StateId) : Prop where
  descriptor_eq : s.descriptor state = .error (.unknownState state.toNat)
  action_eq : ∀ term, s.action state term = .error (.unknownState state.toNat)
  actionTerms_eq : s.actionTerms state = .error (.unknownState state.toNat)
  goto_eq : ∀ term, s.goto state term = .error (.unknownState state.toNat)

theorem unknown_of_le (hwhole : s.states.size = 3 * s.stateCount)
    (hs : s.stateCount ≤ state.toNat) : s.Unknown state := by
  have hrecord := recordWord_of_le hwhole hs
  have hactions : s.actionRun state = .error (.unknownState state.toNat) := by
    rw [actionRun, actionPlace, hrecord]
    rfl
  have hgotos : s.gotoRun state = .error (.unknownState state.toNat) := by
    rw [gotoRun, gotoPlace, hrecord]
    rfl
  refine ⟨?_, fun term => ?_, ?_, fun term => ?_⟩
  · rw [descriptor, hrecord]
    rfl
  · rw [action, hactions]
    rfl
  · rw [actionTerms, hactions]
    rfl
  · rw [goto, hgotos]
    rfl

/-! ## The main statement -/

/-- Every lookup of a state with a record has an answer from what the state stores. -/
theorem answersFrom_of_stores (h : s.check n = .ok ()) (hs : state.toNat < s.stateCount)
    {rows : List (Term × Action)} {targets : List (Term × StateId)}
    (hrows : s.StoresActions state rows) (htargets : s.StoresGotos state targets) :
    s.AnswersFrom state rows targets := by
  obtain ⟨rows', hunique, haction, hterms⟩ := exists_storesActions h hs
  obtain rfl := (hunique rows).mp hrows
  obtain ⟨targets', hunique', hgoto⟩ := exists_storesGotos h hs
  obtain rfl := (hunique' targets).mp htargets
  refine ⟨haction, hterms, hgoto, fun term target ha => ?_, fun term target ha => ?_,
    fun term target hg => ?_⟩
  · exact admits_of_action h hs ha
  · exact admits_of_action h hs ha
  · obtain ⟨found, hfound, hlt⟩ := exists_goto h hs term
    rw [hg] at hfound
    cases hfound
    exact hlt target rfl

end Storage

/-- In tables that were made of arrays, each state with a record stores one list of actions and one
of goto targets, and the lookups are first-match searches of them, which never fail and lead to
states with records. Each lookup of another state fails with an error that names it. -/
theorem Tables.lookups_of_make {storage : Storage} {nested : List (Nested Tables)} {t : Tables}
    (h : make storage nested = .ok t) :
    (∀ state : StateId, state.toNat < t.stateCount →
      (∃! rows, t.StoresActions state rows) ∧ (∃! targets, t.StoresGotos state targets) ∧
      (∃ d, t.descriptor state = .ok d) ∧
      ∀ rows targets, t.StoresActions state rows → t.StoresGotos state targets →
        t.AnswersFrom state rows targets) ∧
    ∀ state : StateId, t.stateCount ≤ state.toNat → t.Unknown state := by
  obtain ⟨hcheck, rfl⟩ := (make_eq_ok_iff storage nested t).mp h
  have hwhole := ((Storage.check_eq_ok_iff storage nested.length).mp hcheck).whole
  refine ⟨fun state hs => ?_, fun state hs => Storage.unknown_of_le hwhole hs⟩
  obtain ⟨rows, hrows, -⟩ := Storage.exists_storesActions hcheck hs
  obtain ⟨targets, htargets, -⟩ := Storage.exists_storesGotos hcheck hs
  refine ⟨⟨rows, (hrows rows).mpr rfl, fun rows' => (hrows rows').mp⟩,
    ⟨targets, (htargets targets).mpr rfl, fun targets' => (htargets targets').mp⟩,
    Storage.exists_descriptor hs,
    fun rows' targets' => Storage.answersFrom_of_stores hcheck hs⟩

/-- The actions of the state 2 are the tail of those of the state 1, and the argument of an action
of the state 1 is the key of another. -/
def sharedTail : Storage where
  start := 0
  states := #[0, 0, 0, 0, 2, 2, 0, 5, 2]
  actions := #[0xffff, 0xffff, 5, 3, 4, 3, 1, 2, 0xffff]
  gotos := #[0xffff, 0xffff, 7, 1, 7, 0, 0xffff]
  specializations := #[]

theorem Tables.lookups_of_make_sharedTail :
    ∃ t, make sharedTail [] = .ok t ∧ t.StoresActions 1 [(5, .skip 3), (3, .push 1)] ∧
      t.action 1 3 = .ok (some (.push 1)) ∧ t.goto 1 7 = .ok (some 1) ∧
      t.action 3 3 = .error (.unknownState 3) := by
  have hmake : make sharedTail [] = .ok { sharedTail with nested := [], names := [] } := rfl
  have hactions : sharedTail.StoresActions 1 [(5, .skip 3), (3, .push 1)] :=
    ⟨_, [(5, 262147), (3, 131073)], ⟨2, rfl, rfl⟩, by decide, rfl⟩
  have hgotos : sharedTail.StoresGotos 1 [(7, 1), (7, 0)] := ⟨_, ⟨2, rfl, rfl⟩, by decide⟩
  obtain ⟨hknown, hunknown⟩ := lookups_of_make hmake
  obtain ⟨-, -, -, hanswers⟩ := hknown 1 (by decide)
  have hanswer := hanswers _ _ hactions hgotos
  exact ⟨_, hmake, hactions, hanswer.action_eq 3, hanswer.goto_eq 7,
    (hunknown 3 (by decide)).action_eq 3⟩

end LRMachine
