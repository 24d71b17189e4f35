import LRMachine.Proofs.Lookups

/-!
# How a state reads a raw term

The readings of a raw term are tried in table order. The first one that decides gives the answer: a
reading decides if the state has an action for its term, or if it takes the place of the raw term.
Behind readings that do not decide the raw term stands for itself. So the answer of
`Storage.resolve` depends on what the state stores and on the first run of the raw term alone
(`resolve_of_check`), and neither the end of input nor the error term is ever mixed up with another
term.
-/

namespace LRMachine

namespace Storage

variable {s : Storage} {state : StateId} {rows : List (Term × Action)} {raw : Term}
  {reading : Specialization}

/-! ## Readings that decide -/

/-- The answer under a term: the first action stored for it, if there is one. -/
def answerUnder (rows : List (Term × Action)) (term : Term) : Option (Term × Action) :=
  (rows.lookup term).map fun action => (term, action)

/-- A reading ends the search in a state that stores the given actions: there is an action for its
term, or the raw term is not valid beside it. -/
def Decides (rows : List (Term × Action)) (reading : Specialization) : Prop :=
  (rows.lookup reading.term).isSome = true ∨ reading.kind = .replace

instance (rows : List (Term × Action)) : DecidablePred (Decides rows) :=
  fun _ => inferInstanceAs (Decidable (_ ∨ _))

theorem resolve_go_nil (hactions : ∀ term, s.action state term = .ok (rows.lookup term)) :
    resolve.go s state raw [] = .ok (answerUnder rows raw) := by
  simp only [resolve.go, hactions, bind, Except.bind, answerUnder]
  cases rows.lookup raw <;> rfl

/-- A reading that decides gives the answer, whatever comes behind it. -/
theorem resolve_go_of_decides (hactions : ∀ term, s.action state term = .ok (rows.lookup term))
    (h : Decides rows reading) (rest : List Specialization) :
    resolve.go s state raw (reading :: rest) = .ok (answerUnder rows reading.term) := by
  simp only [resolve.go, hactions, bind, Except.bind, answerUnder]
  cases hfound : rows.lookup reading.term with
  | some action => rfl
  | none =>
    have hkind : reading.kind = .replace := h.resolve_left (by simp [hfound])
    rw [hkind]
    rfl

theorem resolve_go_of_not_decides (hactions : ∀ term, s.action state term = .ok (rows.lookup term))
    (h : ¬ Decides rows reading) (rest : List Specialization) :
    resolve.go s state raw (reading :: rest) = resolve.go s state raw rest := by
  obtain ⟨hnone, hkind⟩ := not_or.mp h
  have hfound : rows.lookup reading.term = none := Option.not_isSome_iff_eq_none.mp hnone
  have hextend : reading.kind = .extend := by
    cases hk : reading.kind with
    | replace => exact absurd hk hkind
    | extend => rfl
  simp only [resolve.go, hactions, hfound, hextend, bind, Except.bind]

theorem resolve_go_append (hactions : ∀ term, s.action state term = .ok (rows.lookup term))
    (rest : List Specialization) :
    ∀ {before : List Specialization}, (∀ earlier ∈ before, ¬ Decides rows earlier) →
      resolve.go s state raw (before ++ rest) = resolve.go s state raw rest := by
  intro before
  induction before with
  | nil => exact fun _ => rfl
  | cons first before ih =>
    intro h
    obtain ⟨hfirst, hbefore⟩ := List.forall_mem_cons.mp h
    rw [List.cons_append, resolve_go_of_not_decides hactions hfirst, ih hbefore]

/-! ## The main statement -/

/-- A state that stores the given actions reads a raw term by the given readings, in their order. -/
structure ReadsInOrder (s : Storage) (state : StateId) (rows : List (Term × Action))
    (readings : List Specialization) (raw : Term) : Prop where
  decided : ∀ before reading after, readings = before ++ reading :: after →
    (∀ earlier ∈ before, ¬ Decides rows earlier) → Decides rows reading →
      s.resolve state raw = .ok (answerUnder rows reading.term)
  undecided : (∀ reading ∈ readings, ¬ Decides rows reading) →
    s.resolve state raw = .ok (answerUnder rows raw)
  /-- The end of input and the error term are read as themselves, and nothing else as them. -/
  shared : ∀ term action, s.resolve state raw = .ok (some (term, action)) →
    raw.isReserved = true ∨ term.isReserved = true → term = raw

end Storage

open Storage in
/-- In tables that passed the check, a state with a record stores one list of actions and the
specializations are one list of runs, and they alone say how the state reads a raw term: by the
first entry that decides in the first run of the raw term, or as itself if no entry does. -/
theorem Tables.readsInOrder_of_check {t : Tables} (h : t.check = .ok ()) {state : StateId}
    (hs : state.toNat < t.stateCount) :
    ∃ (rows : List (Term × Action)) (runs : List (Term × List Specialization)),
      (∀ rows', t.StoresActions state rows' ↔ rows' = rows) ∧
      (∀ written, t.specializations.toList = written.flatMap Specializations.runCells ↔
        written = runs) ∧
      ∀ raw, t.ReadsInOrder state rows ((runs.lookup raw).getD []) raw := by
  obtain ⟨rows, hrows, hactions, -⟩ := exists_storesActions h hs
  obtain ⟨_, hspecial, -⟩ := exists_of_bind_eq_ok h
  obtain ⟨runs, hruns, -⟩ := exists_of_map_eq_ok hspecial
  obtain ⟨hcells, hstored⟩ := Specializations.runs_eq_ok_iff.mp hruns
  refine ⟨rows, runs, hrows, fun written => ⟨fun hwritten => ?_, fun heq => heq ▸ hcells⟩,
    fun raw => ?_⟩
  · exact Specializations.eq_of_flatMap_runCells hstored (hwritten.symm.trans hcells)
  · have hreadings : t.readings raw = (runs.lookup raw).getD [] :=
      Specializations.entries_eq_lookup hruns raw
    rw [← hreadings]
    refine ⟨fun before reading after hsplit hbefore hdecides => ?_, fun hnone => ?_,
      fun term action hresolve hreserved => ?_⟩
    · rw [resolve, hsplit, resolve_go_append hactions _ hbefore]
      exact resolve_go_of_decides hactions hdecides after
    · rw [resolve, ← List.append_nil (t.readings raw), resolve_go_append hactions [] hnone]
      exact resolve_go_nil hactions
    · rcases term_of_resolve_go hresolve with heq | ⟨reading, hmem, rfl⟩
      · exact heq
      · obtain ⟨hraw, hterm⟩ := Specializations.given_of_mem_entries hspecial hmem
        rw [hraw.1, hterm.1] at hreserved
        simp at hreserved

/-- The term 3 can be read as 5, must be read as 7 otherwise, and never comes to 9; the term 11 can
be read as 5 as well. A second run of 3 counts for nothing. -/
def mixedReadings : Tables :=
  { start := 0, states := #[0, 0, 0, 0, 7, 0]
    actions := #[9, 1, 4, 7, 2, 4, 0xffff, 3, 3, 4, 11, 4, 4, 0xffff], gotos := #[0xffff]
    specializations := #[3, 5, 1, 7, 0, 9, 1, 0xffff, 11, 5, 1, 0xffff, 3, 9, 0, 0xffff]
    nested := [], names := [] }

/-- The state 0 has an action for 7, and the state 1 has one for 3, which 7 takes the place of, and
one for 11. -/
theorem Tables.readsInOrder_of_check_mixed :
    mixedReadings.check = .ok () ∧ mixedReadings.stateCount = 2 ∧
      mixedReadings.resolve 0 3 = .ok (some (7, .skip 2)) ∧
      mixedReadings.resolve 1 3 = .ok none ∧
      mixedReadings.resolve 1 11 = .ok (some (11, .skip 4)) := by
  have hcheck : mixedReadings.check = .ok () := rfl
  have hzero : (0 : StateId).toNat < mixedReadings.stateCount := by decide
  have hone : (1 : StateId).toNat < mixedReadings.stateCount := by decide
  obtain ⟨rows, runs, hrows, hruns, hreads⟩ := readsInOrder_of_check hcheck hzero
  obtain ⟨rows', runs', hrows', hruns', hreads'⟩ := readsInOrder_of_check hcheck hone
  have hcells : mixedReadings.specializations.toList =
      [(3, [⟨5, .extend⟩, ⟨7, .replace⟩, ⟨9, .extend⟩]), (11, [⟨5, .extend⟩]),
        (3, [⟨9, .replace⟩])].flatMap Specializations.runCells := rfl
  obtain rfl := (hruns _).mp hcells
  obtain rfl := (hruns' _).mp hcells
  obtain rfl := (hrows [(9, .skip 1), (7, .skip 2)]).mp
    ⟨_, [(9, 262145), (7, 262146)], ⟨0, rfl, rfl⟩, by decide, rfl⟩
  obtain rfl := (hrows' [(3, .skip 3), (11, .skip 4)]).mp
    ⟨_, [(3, 262147), (11, 262148)], ⟨7, rfl, rfl⟩, by decide, rfl⟩
  refine ⟨hcheck, rfl, ?_, ?_, ?_⟩
  · exact (hreads 3).decided [⟨5, .extend⟩] ⟨7, .replace⟩ [⟨9, .extend⟩] rfl
      (by decide) (.inr rfl)
  · exact (hreads' 3).decided [⟨5, .extend⟩] ⟨7, .replace⟩ [⟨9, .extend⟩] rfl
      (by decide) (.inr rfl)
  · exact (hreads' 11).undecided (by decide)

end LRMachine
