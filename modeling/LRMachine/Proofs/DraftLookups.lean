import Mathlib.Data.List.Induction
import LRMachine.Proofs.DraftLayout

/-!
# Lookups in the tables of a draft

A draft is made by calls in any order. `Draft.Answers` says what the tables of a draft answer, in
terms of the calls alone: the first action and the first target that were recorded for a state and a
term, the terms and readings in the order of the calls, the start state that was named last. The
main statement, `answers_of_layOut`, is that they do, whenever laying out succeeds.
-/

namespace LRMachine

namespace Draft

/-! ## Calls -/

/-- A call that adds to a draft. -/
inductive Call where
  | addState (descriptor : Descriptor)
  | setStart (state : StateId)
  | addAction (e : ActionEntry)
  | addGoto (e : GotoEntry)
  | addReading (e : ReadingEntry)
  | addNested (grammar : Nested Tables)

namespace Call

/-- The draft after a call. -/
def apply (d : Draft) : Call → Draft
  | addState descriptor => (d.addState descriptor).2
  | setStart state => d.setStart state
  | addAction e => d.addAction e.state e.term e.action
  | addGoto e => d.addGoto e.state e.term e.target
  | addReading e => d.addReading e.raw e.reading.term e.reading.kind
  | addNested grammar => (d.addNested grammar).2

/-- The descriptor of a state that the call adds. -/
def descriptor? : Call → Option Descriptor
  | addState descriptor => some descriptor
  | _ => none

/-- The start state that the call names. -/
def start? : Call → Option StateId
  | setStart state => some state
  | _ => none

/-- The action that the call records. -/
def action? : Call → Option ActionEntry
  | addAction e => some e
  | _ => none

/-- The goto that the call records. -/
def goto? : Call → Option GotoEntry
  | addGoto e => some e
  | _ => none

/-- The reading that the call records. -/
def reading? : Call → Option ReadingEntry
  | addReading e => some e
  | _ => none

/-- The nested grammar that the call adds. -/
def nested? : Call → Option (Nested Tables)
  | addNested grammar => some grammar
  | _ => none

end Call

/-- The draft of a sequence of calls. -/
def ofCalls (calls : List Call) : Draft := calls.foldl Call.apply empty

/-- A draft holds what the calls record, list by list in their order. -/
theorem ofCalls_eq (calls : List Call) :
    ofCalls calls =
      { start := (calls.filterMap Call.start?).getLastD 0
        descriptors := (calls.filterMap Call.descriptor?).toArray
        actions := (calls.filterMap Call.action?).toArray
        gotos := (calls.filterMap Call.goto?).toArray
        readings := (calls.filterMap Call.reading?).toArray
        nested := (calls.filterMap Call.nested?).toArray } := by
  induction calls using List.reverseRecOn with
  | nil => rfl
  | append_singleton calls call ih =>
    have hlast : ofCalls (calls ++ [call]) = call.apply (ofCalls calls) := by
      rw [ofCalls, List.foldl_append]
      rfl
    rw [hlast, ih]
    cases call <;>
      simp [Call.apply, addState, setStart, addAction, addGoto, addReading, addNested,
        List.filterMap_append, Call.start?, Call.descriptor?, Call.action?, Call.goto?,
        Call.reading?, Call.nested?]

/-! ## What the calls recorded -/

/-- The first action that was recorded for a state and a term. -/
def firstAction (calls : List Call) (state : StateId) (term : Term) : Option Action :=
  ((calls.filterMap Call.action?).find? fun e => e.state = state ∧ e.term = term).map (·.action)

/-- The terms for which actions of a state were recorded, in the order of the calls. -/
def termsOf (calls : List Call) (state : StateId) : List Term :=
  ((calls.filterMap Call.action?).filter (·.state = state)).map (·.term)

/-- The first target that was recorded for a state and a term. -/
def firstTarget (calls : List Call) (state : StateId) (term : Term) : Option StateId :=
  ((calls.filterMap Call.goto?).find? fun e => e.state = state ∧ e.term = term).map (·.target)

/-- The readings that were recorded for a raw term, in the order of the calls. -/
def readingsOf (calls : List Call) (raw : Term) : List Specialization :=
  ((calls.filterMap Call.reading?).filter (·.raw = raw)).map (·.reading)

/-- The tables answer with what the calls recorded. -/
structure Answers (calls : List Call) (t : Tables) : Prop where
  stateCount_eq : t.stateCount = (calls.filterMap Call.descriptor?).length
  descriptor_eq : ∀ (state : StateId) (descriptor : Descriptor),
    (calls.filterMap Call.descriptor?)[state.toNat]? = some descriptor →
      t.descriptor state = .ok descriptor
  start_eq : t.start = (calls.filterMap Call.start?).getLastD 0
  action_eq : ∀ state : StateId, state.toNat < t.stateCount →
    ∀ term, t.action state term = .ok (firstAction calls state term)
  actionTerms_eq : ∀ state : StateId, state.toNat < t.stateCount →
    t.actionTerms state = .ok (termsOf calls state)
  goto_eq : ∀ state : StateId, state.toNat < t.stateCount →
    ∀ term, t.goto state term = .ok (firstTarget calls state term)
  readings_eq : ∀ raw, t.readings raw = readingsOf calls raw

/-! ## Lookups in what was recorded -/

theorem lookup_map_eq_find? {α β : Type} (key : α → UInt16) (value : α → β) (k : UInt16) :
    ∀ l : List α, (l.map fun a => (key a, value a)).lookup k =
      (l.find? fun a => key a = k).map value := by
  intro l
  induction l with
  | nil => rfl
  | cons a l ih =>
    rw [List.map_cons, List.lookup_cons, List.find?_cons, ih]
    by_cases hkey : key a = k
    · simp [hkey]
    · have hbeq : (k == key a) = false := by simpa using fun heq => hkey heq.symm
      simp [hkey, hbeq]

theorem lookup_map_self {β : Type} (f : Term → β) (k : Term) :
    ∀ keys : List Term,
      (keys.map fun key => (key, f key)).lookup k = if k ∈ keys then some (f k) else none := by
  intro keys
  induction keys with
  | nil => rfl
  | cons key keys ih =>
    rw [List.map_cons, List.lookup_cons, ih]
    by_cases hkey : k = key
    · simp [hkey]
    · have hbeq : (k == key) = false := by simpa using hkey
      simp [hkey, hbeq]

/-- The readings of a draft for a raw term are those that were added for it. -/
theorem lookup_readingRuns (d : Draft) (raw : Term) :
    (d.readingRuns.lookup raw).getD [] =
      (d.readings.toList.filter (·.raw = raw)).map (·.reading) := by
  rw [readingRuns, lookup_map_self]
  split
  · simp [beq_eq_decide]
  · rename_i hmem
    have hnone : ∀ e ∈ d.readings.toList, e.raw ≠ raw := by
      intro e he heq
      exact hmem (List.mem_eraseDups.mpr (List.mem_map.mpr ⟨e, he, heq⟩))
    rw [List.filter_eq_nil_iff.mpr (by simpa using hnone)]
    rfl

/-! ## The tables of the calls -/

section Calls

variable {calls : List Call} {t : Tables}

theorem actionsOf_ofCalls (calls : List Call) (state : StateId) :
    (ofCalls calls).actionsOf state.toNat =
      (calls.filterMap Call.action?).filter (·.state = state) := by
  rw [actionsOf, ofCalls_eq]
  simp only [beq_eq_decide, UInt16.toNat_inj]

theorem gotosOf_ofCalls (calls : List Call) (state : StateId) :
    (ofCalls calls).gotosOf state.toNat =
      (calls.filterMap Call.goto?).filter (·.state = state) := by
  rw [gotosOf, ofCalls_eq]
  simp only [beq_eq_decide, UInt16.toNat_inj]

theorem action_of_calls (h : (ofCalls calls).layOut = .ok t)
    (hterms : ∀ e ∈ calls.filterMap Call.action?, e.term ≠ endMark)
    (hsize : t.actions.size < UInt32.size) {state : StateId} (hs : state.toNat < t.stateCount) :
    t.actionTerms state = .ok (termsOf calls state) ∧
      ∀ term, t.action state term = .ok (firstAction calls state term) := by
  have hactions : (ofCalls calls).actions.toList = calls.filterMap Call.action? := by
    rw [ofCalls_eq]
  obtain ⟨run, rest, hrun, hend, hentries⟩ :=
    exists_actionRun_of_layOut h (hactions ▸ hterms) hsize hs
  rw [actionsOf_ofCalls] at hentries
  constructor
  · have hkeys := congrArg (List.map Prod.fst) hentries
    rw [List.map_map, List.map_map] at hkeys
    rw [Storage.actionTerms_eq_keys hrun hend]
    exact congrArg Except.ok hkeys
  · intro term
    have hrows : run.entries.map (fun e => (e.1, Action.decode e.2)) =
        (((calls.filterMap Call.action?).filter (·.state = state)).map
          fun e => (e.term, e.action)).map fun e => (e.1, .ok e.2) := by
      rw [hentries, List.map_map]
      rfl
    rw [Storage.action_eq_lookup hrun hend hrows, lookup_map_eq_find?, List.find?_filter]
    simp only [decide_eq_true_eq]
    rfl

theorem goto_of_calls (h : (ofCalls calls).layOut = .ok t)
    (hterms : ∀ e ∈ calls.filterMap Call.goto?, e.term ≠ endMark)
    (hsize : t.gotos.size < UInt32.size) {state : StateId} (hs : state.toNat < t.stateCount)
    (term : Term) : t.goto state term = .ok (firstTarget calls state term) := by
  have hgotos : (ofCalls calls).gotos.toList = calls.filterMap Call.goto? := by
    rw [ofCalls_eq]
  obtain ⟨run, rest, hrun, hend, hentries⟩ :=
    exists_gotoRun_of_layOut h (hgotos ▸ hterms) hsize hs
  rw [Storage.goto_eq_lookup hrun hend, hentries, gotosOf_ofCalls, lookup_map_eq_find?,
    List.find?_filter]
  simp only [decide_eq_true_eq]
  rfl

theorem readings_of_calls (h : (ofCalls calls).layOut = .ok t) (raw : Term) :
    t.readings raw = readingsOf calls raw := by
  rw [Storage.readings, Specializations.entries_eq_lookup (runs_of_layOut h), lookup_readingRuns,
    ofCalls_eq]
  rfl

/-- What was recorded in a draft is looked up in its tables, in whatever order the calls came. -/
theorem answers_of_layOut (h : (ofCalls calls).layOut = .ok t)
    (hactionTerms : ∀ e ∈ calls.filterMap Call.action?, e.term ≠ endMark)
    (hgotoTerms : ∀ e ∈ calls.filterMap Call.goto?, e.term ≠ endMark)
    (hactionCells : t.actions.size < UInt32.size) (hgotoCells : t.gotos.size < UInt32.size) :
    Answers calls t where
  stateCount_eq := by
    rw [stateCount_of_layOut h, ofCalls_eq]
    rfl
  descriptor_eq state descriptor hdescriptor := by
    have hrecorded : (ofCalls calls).descriptors[state.toNat]? = some descriptor := by
      rw [ofCalls_eq, List.getElem?_toArray]
      exact hdescriptor
    obtain ⟨hlt, -⟩ := Array.getElem?_eq_some_iff.mp hrecorded
    obtain ⟨found, hfound, hlookup⟩ := descriptor_of_layOut h (stateCount_of_layOut h ▸ hlt)
    rw [hlookup, Option.some.inj (hfound.symm.trans hrecorded)]
  start_eq := by rw [start_of_layOut h, ofCalls_eq]
  action_eq _ hs := (action_of_calls h hactionTerms hactionCells hs).2
  actionTerms_eq _ hs := (action_of_calls h hactionTerms hactionCells hs).1
  goto_eq _ hs := goto_of_calls h hgotoTerms hgotoCells hs
  readings_eq := readings_of_calls h

/-- Two states, with an action in front of its state, a second action and a second goto for the same
term, and the readings of two raw terms in turns. -/
def interleaved : List Call := [
  .addAction ⟨1, 5, .reduce ⟨7, 1, true, false⟩⟩, .addReading ⟨3, 9, .extend⟩, .addState ⟨0⟩,
  .addAction ⟨0, 3, .shift 1⟩, .addAction ⟨0, 3, .push 1⟩, .addReading ⟨5, 11, .replace⟩,
  .addReading ⟨3, 13, .replace⟩, .addState ⟨2⟩, .setStart 1, .addGoto ⟨0, 7, 1⟩,
  .addGoto ⟨0, 7, 0⟩, .setStart 0]

theorem answers_of_layOut_interleaved :
    ∃ t, (ofCalls interleaved).layOut = .ok t ∧
      (∀ e ∈ interleaved.filterMap Call.action?, e.term ≠ endMark) ∧
      (∀ e ∈ interleaved.filterMap Call.goto?, e.term ≠ endMark) ∧
      t.actions.size < UInt32.size ∧ t.gotos.size < UInt32.size ∧ Answers interleaved t ∧
      t.action 0 3 = .ok (some (.shift 1)) ∧ t.readings 3 = [⟨9, .extend⟩, ⟨13, .replace⟩] := by
  obtain ⟨t, h, hactionCells, hgotoCells⟩ : ∃ t, (ofCalls interleaved).layOut = .ok t ∧
      t.actions.size < UInt32.size ∧ t.gotos.size < UInt32.size := ⟨_, rfl, by decide, by decide⟩
  have hactionTerms : ∀ e ∈ interleaved.filterMap Call.action?, e.term ≠ endMark := by decide
  have hgotoTerms : ∀ e ∈ interleaved.filterMap Call.goto?, e.term ≠ endMark := by decide
  have hanswers := answers_of_layOut h hactionTerms hgotoTerms hactionCells hgotoCells
  have hcount : (0 : StateId).toNat < t.stateCount := by
    rw [hanswers.stateCount_eq]
    decide
  refine ⟨t, h, hactionTerms, hgotoTerms, hactionCells, hgotoCells, hanswers, ?_, ?_⟩
  · rw [hanswers.action_eq 0 hcount]
    rfl
  · rw [hanswers.readings_eq]
    rfl

end Calls

end Draft

end LRMachine
