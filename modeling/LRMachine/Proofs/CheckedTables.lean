import LRMachine.Document
import LRMachine.Draft
import LRMachine.Grammar.Sum

/-!
# Lookups in checked tables

`Storage.check` reads every run of every state once, with all tests; the lookups read the same runs
again without them. `Run.read_eq_of_checked` says that the two readings agree where the tested one
succeeds. Hence, for a state that has a record, each lookup of checked tables has an answer, and the
states and terms in the answer are good (`exists_action`, `exists_goto`, `exists_resolve`).

`Tables.Valid` holds of tables that passed the check together with all tables nested in them;
`Tables.Obtained.valid` derives it for every way to obtain tables.
-/

namespace LRMachine

/-! ## Tested and plain readings of a run -/

namespace Run

variable {α : Type} {tested plain : UInt16 → CellReader α} {P : UInt16 → α → Prop}

/-- A run that a tested reading closes is the same run for the plain one, and its entries pass. -/
theorem read_eq_of_checked
    (h : ∀ key c v rest, tested key c = .ok v rest → plain key c = .ok v rest ∧ P key v) :
    ∀ n c rest, (read tested n c).ending = .ok rest →
      read plain n c = read tested n c ∧ ∀ e ∈ (read tested n c).entries, P e.1 e.2 := by
  intro n
  induction n with
  | zero => intro c rest hend; simp [read] at hend
  | succ n ih =>
    intro c rest hend
    simp only [read] at hend ⊢
    cases hkey : CellReader.nextTerm c with
    | error e c' => simp [hkey] at hend
    | ok key? c' =>
      cases key? with
      | none => simp
      | some key =>
        simp only [hkey] at hend ⊢
        cases hv : tested key c' with
        | error e c'' => simp [hv] at hend
        | ok v c'' =>
          simp only [hv] at hend ⊢
          obtain ⟨hplain, hP⟩ := h key c' v c'' hv
          obtain ⟨heq, hall⟩ := ih c'' rest hend
          simp only [hplain, heq, List.mem_cons, forall_eq_or_imp]
          exact ⟨trivial, hP, hall⟩

theorem ofCells_eq_of_checked
    (h : ∀ key c v rest, tested key c = .ok v rest → plain key c = .ok v rest ∧ P key v)
    {c rest : Cells} (hend : (ofCells tested c).ending = .ok rest) :
    (ofCells plain c).ending = .ok rest ∧ ∀ e ∈ (ofCells plain c).entries, P e.1 e.2 := by
  obtain ⟨heq, hall⟩ := read_eq_of_checked h c.remaining c rest hend
  unfold ofCells at hend ⊢
  rw [heq]
  exact ⟨hend, hall⟩

theorem find_eq_lookup {r : Run α} {rest : Cells} (hend : r.ending = .ok rest) (key : UInt16) :
    r.find key = .ok (r.entries.lookup key) := by
  unfold find
  cases r.entries.lookup key <;> simp [hend, Except.map]

theorem exists_find {r : Run α} {rest : Cells} (hend : r.ending = .ok rest) (key : UInt16) :
    ∃ found, r.find key = .ok found ∧ ∀ v ∈ found, (key, v) ∈ r.entries := by
  refine ⟨_, find_eq_lookup hend key, fun v hv => ?_⟩
  obtain ⟨before, after, hsplit, -⟩ := List.lookup_eq_some_iff.mp hv
  simp [hsplit]

end Run

theorem lookup_map_snd {α β γ : Type} [BEq α] (f : β → γ) (a : α) :
    ∀ entries : List (α × β),
      (entries.map fun e => (e.1, f e.2)).lookup a = (entries.lookup a).map f := by
  intro entries
  induction entries with
  | nil => rfl
  | cons e rest ih =>
    obtain ⟨key, b⟩ := e
    simp only [List.map_cons, List.lookup_cons, ih]
    cases a == key <;> rfl

/-! ## Taking computations apart -/

theorem exists_of_bind_eq_ok {α β : Type} {x : Except Error α} {f : α → Except Error β} {b : β}
    (h : (x >>= f) = .ok b) : ∃ a, x = .ok a ∧ f a = .ok b := by
  cases x with
  | error e => cases h
  | ok a => exact ⟨a, rfl, h⟩

theorem bind_eq_ok_iff {α β : Type} {x : Except Error α} {f : α → Except Error β} {b : β} :
    (x >>= f) = .ok b ↔ ∃ a, x = .ok a ∧ f a = .ok b := by
  constructor
  · exact exists_of_bind_eq_ok
  · rintro ⟨a, rfl, h⟩
    exact h

theorem exists_of_map_eq_ok {α β : Type} {x : Except Error α} {f : α → β} {b : β}
    (h : x.map f = .ok b) : ∃ a, x = .ok a ∧ f a = b := by
  cases x with
  | error e => cases h
  | ok a => exact ⟨a, rfl, Except.ok.inj h⟩

theorem exists_of_run_bind_eq_ok {ε σ α β : Type} {x : EStateM ε σ α} {f : α → EStateM ε σ β}
    {b : β} {c rest : σ} (h : (x >>= f) c = .ok b rest) :
    ∃ a mid, x c = .ok a mid ∧ f a mid = .ok b rest := by
  simp only [bind, EStateM.bind] at h
  cases hx : x c with
  | error e mid => simp [hx] at h
  | ok a mid => exact ⟨a, mid, rfl, by simpa [hx] using h⟩

namespace CellReader

variable {α : Type} {c rest : Cells}

theorem check_eq_ok {x : Except Error α} {a : α} (h : check x c = .ok a rest) :
    x = .ok a ∧ c = rest := by
  cases x with
  | error e => cases h
  | ok b =>
    cases h
    exact ⟨rfl, rfl⟩

theorem read_check_eq_ok {x : CellReader α} {test : α → Except Error Unit} {a : α}
    (h : (do let v ← x; check (test v); pure v : CellReader α) c = .ok a rest) :
    x c = .ok a rest ∧ test a = .ok () := by
  obtain ⟨v, mid, hx, h⟩ := exists_of_run_bind_eq_ok h
  obtain ⟨u, mid', hcheck, hpure⟩ := exists_of_run_bind_eq_ok h
  obtain ⟨htest, rfl⟩ := check_eq_ok hcheck
  cases hpure
  exact ⟨hx, htest⟩

end CellReader

namespace Storage

/-! ## What the check of one entry guarantees -/

/-- What the check guarantees of an action: its target has a record, and a reduction makes progress
and builds a term of the grammar. -/
def Admits (s : Storage) : Action → Prop
  | .shift target => target.toNat < s.stateCount
  | .push target => target.toNat < s.stateCount
  | .skip _ => True
  | .reduce r => ¬ (r.stays = true ∧ r.depth = 0) ∧ r.term.isReserved = false

theorem checkTarget_eq_ok_iff (s : Storage) (state : StateId) :
    s.checkTarget state = .ok () ↔ state.toNat < s.stateCount := by
  unfold checkTarget
  split <;> simp [*]

theorem checkAction_eq_ok_iff (s : Storage) (word : UInt32) :
    s.checkAction word = .ok () ↔ ∃ a, Action.decode word = .ok a ∧ s.Admits a := by
  have hadmits : ∀ a, Action.decode word = .ok a → (s.checkAction word = .ok () ↔ s.Admits a) := by
    intro a ha
    simp only [checkAction, ha, bind, Except.bind]
    cases a with
    | shift target => exact checkTarget_eq_ok_iff s target
    | push target => exact checkTarget_eq_ok_iff s target
    | skip _ => simp [Admits]
    | reduce r =>
      by_cases hstay : r.stays = true ∧ r.depth = 0
      · simp [Admits, hstay]
      · by_cases hterm : r.term.isReserved = true
        · simp [Admits, hstay, hterm]
        · simp [Admits, hstay, hterm]
  constructor
  · intro h
    obtain ⟨a, ha, -⟩ := exists_of_bind_eq_ok h
    exact ⟨a, ha, (hadmits a ha).mp h⟩
  · rintro ⟨a, ha, hgood⟩
    exact (hadmits a ha).mpr hgood

theorem checkedAction_eq_ok (s : Storage) (key : Term) (c : Cells) (word : UInt32) (rest : Cells)
    (h : s.checkedAction key c = .ok word rest) :
    CellReader.nextPair c = .ok word rest ∧ s.checkAction word = .ok () :=
  CellReader.read_check_eq_ok h

theorem checkedGoto_eq_ok (s : Storage) (key : Term) (c : Cells) (target : StateId) (rest : Cells)
    (h : s.checkedGoto key c = .ok target rest) :
    CellReader.nextValue c = .ok target rest ∧ target.toNat < s.stateCount := by
  unfold checkedGoto at h
  split at h
  · cases h
  · obtain ⟨hread, htarget⟩ := CellReader.read_check_eq_ok h
    exact ⟨hread, (checkTarget_eq_ok_iff s target).mp htarget⟩

/-! ## What lookups find -/

theorem action_eq_lookup {s : Storage} {state : StateId} {run : Run UInt32} {c : Cells}
    {rows : List (Term × Action)} (hrun : s.actionRun state = .ok run) (hend : run.ending = .ok c)
    (hrows : run.entries.map (fun e => (e.1, Action.decode e.2)) =
      rows.map fun e => (e.1, .ok e.2)) (term : Term) :
    s.action state term = .ok (rows.lookup term) := by
  have hlookup : (run.entries.lookup term).map Action.decode = (rows.lookup term).map .ok := by
    rw [← lookup_map_snd, hrows, lookup_map_snd]
  simp only [action, hrun, bind, Except.bind, Run.find_eq_lookup hend]
  cases hword : run.entries.lookup term with
  | none =>
    rw [hword] at hlookup
    cases hrow : rows.lookup term with
    | none => rfl
    | some a => simp [hrow] at hlookup
  | some word =>
    rw [hword] at hlookup
    cases hrow : rows.lookup term with
    | none => simp [hrow] at hlookup
    | some a =>
      have hdecode : Action.decode word = .ok a := by simpa [hrow] using hlookup
      simp [hdecode, Except.map]

theorem actionTerms_eq_keys {s : Storage} {state : StateId} {run : Run UInt32} {c : Cells}
    (hrun : s.actionRun state = .ok run) (hend : run.ending = .ok c) :
    s.actionTerms state = .ok (run.entries.map Prod.fst) := by
  simp only [actionTerms, hrun, bind, Except.bind, Run.keys, hend, Except.map]

theorem goto_eq_lookup {s : Storage} {state : StateId} {run : Run StateId} {c : Cells}
    (hrun : s.gotoRun state = .ok run) (hend : run.ending = .ok c) (term : Term) :
    s.goto state term = .ok (run.entries.lookup term) := by
  simp only [goto, hrun, bind, Except.bind, Run.find_eq_lookup hend]

/-! ## The parts of a check -/

section Checked

variable {s : Storage} {n : Nat} {state : StateId}

theorem checkState_of_checkLastStates (hsize : s.stateCount ≤ 65536) :
    ∀ m, m ≤ s.stateCount → s.checkLastStates n m = .ok () →
      s.stateCount - m ≤ state.toNat → state.toNat < s.stateCount →
        s.checkState n state = .ok () := by
  intro m
  induction m with
  | zero => intro _ _ hlo hhi; omega
  | succ m ih =>
    intro hm h hlo hhi
    unfold checkLastStates at h
    obtain ⟨_, hfirst, h⟩ := exists_of_bind_eq_ok h
    by_cases heq : state.toNat = s.stateCount - (m + 1)
    · rw [← heq, UInt16.ofNat_toNat] at hfirst
      exact hfirst
    · exact ih (by omega) h (by omega) hhi

theorem check_parts (h : s.check n = .ok ()) :
    s.start.toNat < s.stateCount ∧
      ∀ state : StateId, state.toNat < s.stateCount → s.checkState n state = .ok () := by
  unfold check at h
  obtain ⟨-, -, h⟩ := exists_of_bind_eq_ok h
  obtain ⟨_, hsize, h⟩ := exists_of_bind_eq_ok h
  obtain ⟨_, hstart, h⟩ := exists_of_bind_eq_ok h
  have hcount : s.stateCount ≤ 65536 := by
    unfold checkSize at hsize
    split at hsize
    · cases hsize
    · simp_all
  refine ⟨(checkTarget_eq_ok_iff s _).mp hstart, fun state hs => ?_⟩
  exact checkState_of_checkLastStates hcount _ (Nat.le_refl _) h (by omega) hs

theorem checkState_parts (h : s.checkState n state = .ok ()) :
    s.checkNest n state = .ok () ∧
      (∃ place rest, s.actionPlace state = .ok place ∧
        (Run.ofCells s.checkedAction place).ending = .ok rest) ∧
      ∃ place rest, s.gotoPlace state = .ok place ∧
        (Run.ofCells s.checkedGoto place).ending = .ok rest := by
  unfold checkState at h
  obtain ⟨_, hnest, h⟩ := exists_of_bind_eq_ok h
  obtain ⟨actionPlace, hact, h⟩ := exists_of_bind_eq_ok h
  obtain ⟨actionRest, hactEnd, h⟩ := exists_of_bind_eq_ok h
  obtain ⟨gotoPlace, hgoto, h⟩ := exists_of_bind_eq_ok h
  obtain ⟨gotoRest, hgotoEnd, -⟩ := exists_of_bind_eq_ok h
  exact ⟨hnest, ⟨actionPlace, actionRest, hact, hactEnd⟩, ⟨gotoPlace, gotoRest, hgoto, hgotoEnd⟩⟩

/-! ## Lookups that cannot fail -/

theorem exists_descriptor (hs : state.toNat < s.stateCount) :
    ∃ d, s.descriptor state = .ok d := by
  have hlt : 3 * state.toNat + 0 < s.states.size := by unfold stateCount at hs; omega
  refine ⟨⟨s.states[3 * state.toNat + 0]⟩, ?_⟩
  simp only [descriptor, recordWord, Array.getElem?_eq_getElem hlt, Except.map]

theorem lt_stateCount_of_start (h : s.check n = .ok ()) : s.start.toNat < s.stateCount :=
  (check_parts h).1

theorem nestIndex_lt (h : s.check n = .ok ()) (hs : state.toNat < s.stateCount) {d : Descriptor}
    (hd : s.descriptor state = .ok d) {i : Nat} (hi : d.nestIndex? = some i) : i < n := by
  have hnest := (checkState_parts ((check_parts h).2 state hs)).1
  simp only [checkNest, hd, hi, bind, Except.bind] at hnest
  split at hnest
  · assumption
  · simp at hnest

theorem exists_actionRun (h : s.check n = .ok ()) (hs : state.toNat < s.stateCount) :
    ∃ run rest, s.actionRun state = .ok run ∧ run.ending = .ok rest ∧
      ∀ e ∈ run.entries, s.checkAction e.2 = .ok () := by
  obtain ⟨-, ⟨place, rest, hplace, hend⟩, -⟩ := checkState_parts ((check_parts h).2 state hs)
  obtain ⟨hend, hall⟩ := Run.ofCells_eq_of_checked (P := fun _ word => s.checkAction word = .ok ())
    (checkedAction_eq_ok s) hend
  exact ⟨_, rest, by simp only [actionRun, hplace, Except.map], hend, hall⟩

theorem exists_gotoRun (h : s.check n = .ok ()) (hs : state.toNat < s.stateCount) :
    ∃ run rest, s.gotoRun state = .ok run ∧ run.ending = .ok rest ∧
      ∀ e ∈ run.entries, e.2.toNat < s.stateCount := by
  obtain ⟨-, -, ⟨place, rest, hplace, hend⟩⟩ := checkState_parts ((check_parts h).2 state hs)
  obtain ⟨hend, hall⟩ := Run.ofCells_eq_of_checked
    (P := fun _ (target : StateId) => target.toNat < s.stateCount)
    (checkedGoto_eq_ok s) hend
  exact ⟨_, rest, by simp only [gotoRun, hplace, Except.map], hend, hall⟩

theorem exists_action (h : s.check n = .ok ()) (hs : state.toNat < s.stateCount) (term : Term) :
    ∃ found, s.action state term = .ok found ∧ ∀ a ∈ found, s.Admits a := by
  obtain ⟨run, rest, hrun, hend, hall⟩ := exists_actionRun h hs
  obtain ⟨found, hfind, hmem⟩ := Run.exists_find hend term
  simp only [action, hrun, hfind, bind, Except.bind]
  cases found with
  | none => exact ⟨none, rfl, by simp⟩
  | some word =>
    obtain ⟨a, ha, hgood⟩ := (checkAction_eq_ok_iff s word).mp (hall _ (hmem word rfl))
    exact ⟨some a, by simp only [ha, Except.map], by simpa using hgood⟩

theorem exists_actionTerms (h : s.check n = .ok ()) (hs : state.toNat < s.stateCount) :
    ∃ terms, s.actionTerms state = .ok terms := by
  obtain ⟨run, rest, hrun, hend, -⟩ := exists_actionRun h hs
  exact ⟨_, actionTerms_eq_keys hrun hend⟩

theorem exists_goto (h : s.check n = .ok ()) (hs : state.toNat < s.stateCount) (term : Term) :
    ∃ found, s.goto state term = .ok found ∧ ∀ target ∈ found, target.toNat < s.stateCount := by
  obtain ⟨run, rest, hrun, hend, hall⟩ := exists_gotoRun h hs
  obtain ⟨found, hfind, hmem⟩ := Run.exists_find hend term
  refine ⟨found, by simp only [goto, hrun, hfind, bind, Except.bind], fun target ht => ?_⟩
  exact hall _ (hmem target ht)

/-- The search through readings has an answer, and an action in it is the state's action for the
term that it comes with. -/
theorem exists_resolve_go (h : s.check n = .ok ()) (hs : state.toNat < s.stateCount) (raw : Term) :
    ∀ readings, ∃ found, resolve.go s state raw readings = .ok found ∧
      ∀ term a, found = some (term, a) → s.action state term = .ok (some a) := by
  intro readings
  induction readings with
  | nil =>
    obtain ⟨found, hact, -⟩ := exists_action h hs raw
    cases found with
    | none => exact ⟨none, by simp only [resolve.go, hact, bind, Except.bind], by simp⟩
    | some a =>
      refine ⟨some (raw, a), by simp only [resolve.go, hact, bind, Except.bind], ?_⟩
      rintro term b ⟨⟩
      exact hact
  | cons reading rest ih =>
    obtain ⟨found, hact, -⟩ := exists_action h hs reading.term
    cases found with
    | some a =>
      refine ⟨some (reading.term, a), by simp only [resolve.go, hact, bind, Except.bind], ?_⟩
      rintro term b ⟨⟩
      exact hact
    | none =>
      cases hk : reading.kind with
      | replace => exact ⟨none, by simp only [resolve.go, hact, hk, bind, Except.bind], by simp⟩
      | extend => simpa only [resolve.go, hact, hk, bind, Except.bind] using ih

theorem exists_resolve (h : s.check n = .ok ()) (hs : state.toNat < s.stateCount) (raw : Term) :
    ∃ found, s.resolve state raw = .ok found ∧
      ∀ term a, found = some (term, a) → s.action state term = .ok (some a) :=
  exists_resolve_go h hs raw _

theorem admits_of_action (h : s.check n = .ok ()) (hs : state.toNat < s.stateCount) {term : Term}
    {a : Action} (ha : s.action state term = .ok (some a)) : s.Admits a := by
  obtain ⟨found, hact, hgood⟩ := exists_action h hs term
  rw [ha] at hact
  cases hact
  exact hgood a rfl

end Checked

end Storage

/-! ## Valid tables and the ways to obtain them -/

namespace Tables

/-- The tables passed the check, and so did all tables nested in them. -/
inductive Valid : Tables → Prop where
  | intro {t : Tables} (checked : t.check = .ok ()) (nested : ∀ g ∈ t.nested, Valid g.tables) :
    Valid t

theorem Valid.check_eq {t : Tables} (h : t.Valid) : t.toStorage.check t.nested.length = .ok () := by
  cases h with
  | intro checked _ => exact checked

theorem Valid.of_mem {t : Tables} (h : t.Valid) {g : Nested Tables} (hg : g ∈ t.nested) :
    g.tables.Valid := by
  cases h with
  | intro _ nested => exact nested g hg

theorem Valid.exists_nested {t : Tables} (h : t.Valid) {state : StateId}
    (hs : state.toNat < t.stateCount) {d : Descriptor} (hd : t.descriptor state = .ok d) {i : Nat}
    (hi : d.nestIndex? = some i) : ∃ g, t.nested[i]? = some g :=
  ⟨_, List.getElem?_eq_getElem (Storage.nestIndex_lt h.check_eq hs hd hi)⟩

/-- The tables that a user can hold: made of arrays, laid out from a draft or read from a document,
where tables to nest were obtained in the same way. -/
inductive Obtained : Tables → Prop where
  | make {storage : Storage} {nested : List (Nested Tables)} {t : Tables}
    (made : Tables.make storage nested = .ok t) (parts : ∀ g ∈ nested, Obtained g.tables) :
    Obtained t
  | layOut {d : Draft} {t : Tables} (made : d.layOut = .ok t)
    (parts : ∀ g ∈ d.nested.toList, Obtained g.tables) : Obtained t
  | ofJson {doc : Json} {t : Tables} (made : Tables.ofJson doc = .ok t) : Obtained t
  | ofText {text : String} {t : Tables} (made : Tables.ofText text = .ok t) : Obtained t
  | withNames {t : Tables} (names : List String) (given : Obtained t) : Obtained (t.withNames names)

theorem valid_of_make {storage : Storage} {nested : List (Nested Tables)} {t : Tables}
    (made : make storage nested = .ok t) (parts : ∀ g ∈ nested, g.tables.Valid) : t.Valid := by
  obtain ⟨hcheck, rfl⟩ := (make_eq_ok_iff storage nested t).mp made
  exact .intro hcheck parts

theorem Valid.withNames {t : Tables} (h : t.Valid) (names : List String) :
    (t.withNames names).Valid := by
  cases h with
  | intro checked nested => exact .intro checked nested

theorem valid_of_layOut {d : Draft} {t : Tables} (made : d.layOut = .ok t)
    (parts : ∀ g ∈ d.nested.toList, g.tables.Valid) : t.Valid := by
  unfold Draft.layOut at made
  obtain ⟨-, -, made⟩ := exists_of_bind_eq_ok made
  obtain ⟨l, -, made⟩ := exists_of_bind_eq_ok made
  exact valid_of_make made parts

theorem mem_of_mapM_eq_ok {α β : Type} {f : α → Except Error β} :
    ∀ {xs : List α} {ys : List β}, xs.mapM f = .ok ys → ∀ y ∈ ys, ∃ x ∈ xs, f x = .ok y := by
  intro xs
  induction xs with
  | nil =>
    intro ys h y hy
    cases h
    simp at hy
  | cons x xs ih =>
    intro ys h y hy
    rw [List.mapM_cons] at h
    obtain ⟨v, hx, h⟩ := exists_of_bind_eq_ok h
    obtain ⟨vs, hxs, h⟩ := exists_of_bind_eq_ok h
    cases h
    rcases List.mem_cons.mp hy with rfl | hy
    · exact ⟨x, by simp, hx⟩
    · obtain ⟨x', hx', hf⟩ := ih hxs y hy
      exact ⟨x', by simp [hx'], hf⟩

/-- A document nests tables at any depth, and all of them were checked. -/
theorem valid_of_ofJson (doc : Json) (t : Tables) (made : ofJson doc = .ok t) : t.Valid := by
  induction doc using ofJson.induct generalizing t with
  | case1 doc ih =>
    rw [ofJson] at made
    obtain ⟨start, -, made⟩ := exists_of_bind_eq_ok made
    dsimp only at made
    split at made
    · cases made
    · rename_i entries hentries
      obtain ⟨nested, hnested, made⟩ := exists_of_bind_eq_ok made
      obtain ⟨storage, -, made⟩ := exists_of_bind_eq_ok made
      obtain ⟨tables, hmake, made⟩ := exists_of_bind_eq_ok made
      cases made
      refine Valid.withNames (valid_of_make hmake fun g hg => ?_) _
      -- the nested grammar `g` was read from one of the entries
      obtain ⟨⟨entry, hentry⟩, -, hread⟩ := mem_of_mapM_eq_ok hnested g hg
      dsimp only at hread
      split at hread
      · cases hread
      · rename_i grammar hgrammar
        obtain ⟨inner, hinner, hread⟩ := exists_of_bind_eq_ok hread
        obtain ⟨closing, -, hread⟩ := exists_of_bind_eq_ok hread
        obtain ⟨placeholder, -, hread⟩ := exists_of_bind_eq_ok hread
        cases hread
        exact ih entries hentries entry hentry grammar hgrammar inner hinner

theorem valid_of_ofText {text : String} {t : Tables} (made : ofText text = .ok t) : t.Valid := by
  unfold ofText at made
  split at made
  · exact valid_of_ofJson _ t made
  · simp at made

theorem Obtained.valid {t : Tables} (h : t.Obtained) : t.Valid := by
  induction h with
  | make made _ ih => exact valid_of_make made ih
  | layOut made _ ih => exact valid_of_layOut made ih
  | ofJson made => exact valid_of_ofJson _ _ made
  | ofText made => exact valid_of_ofText made
  | withNames names _ ih => exact ih.withNames names

end Tables

/-- The ready-made tables are obtained like all others. -/
theorem Grammar.sum_obtained : Grammar.sum.Obtained := by
  have hmake : Tables.make sumStorage [] = .ok { sumStorage with nested := [], names := [] } := rfl
  exact .withNames sumNames (.make hmake (by simp))

end LRMachine
