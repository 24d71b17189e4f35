import LRMachine.Grammar.Sum

/-!
# Conditions on tables

The counters of a parse are right over tables of certain kinds. Each kind is a condition on what the
lookups give (`Tables.Flat`, `Tables.EmptyFree`, `Tables.Plain`, `Tables.Mountable`) and comes with
a test that goes through the states (`Storage.everywhere`).
-/

namespace LRMachine

/-! ## Tests of all states -/

namespace Storage

variable {s : Storage} {state : StateId}

/-- The actions that a state stores. -/
def actionsOf (s : Storage) (state : StateId) : List Action :=
  match s.actionRun state with
  | .ok run => run.entries.filterMap fun e => (Action.decode e.2).toOption
  | .error _ => []

theorem mem_actionsOf {term : Term} {a : Action} (h : s.action state term = .ok (some a)) :
    a ∈ s.actionsOf state := by
  unfold action at h
  unfold actionsOf
  cases hrun : s.actionRun state with
  | error e => simp [hrun, bind, Except.bind] at h
  | ok run =>
    simp only [hrun, bind, Except.bind, Run.find] at h
    cases hl : run.entries.lookup term with
    | none =>
      cases hend : run.ending <;> simp [hl, hend, Except.map] at h
    | some word =>
      obtain ⟨before, after, hsplit, -⟩ := List.lookup_eq_some_iff.mp hl
      cases hdec : Action.decode word with
      | error e => simp [hl, hdec, Except.map] at h
      | ok b =>
        simp only [hl, hdec, Except.map, Except.ok.injEq, Option.some.injEq] at h
        have hmem : (term, word) ∈ run.entries := by simp [hsplit]
        exact List.mem_filterMap.mpr ⟨_, hmem, by simp [hdec, h, Except.toOption]⟩

theorem exists_descriptor_of_recordWord {field : Nat} {word : UInt32}
    (h : s.recordWord state field = .ok word) : ∃ d, s.descriptor state = .ok d := by
  unfold recordWord at h
  split at h
  · rename_i w hw
    have hlt := (Array.getElem?_eq_some_iff.mp hw).1
    have hlt : 3 * state.toNat + 0 < s.states.size := by omega
    exact ⟨⟨s.states[3 * state.toNat + 0]⟩, by
      simp only [descriptor, recordWord, Array.getElem?_eq_getElem hlt, Except.map]⟩
  · cases h

theorem exists_descriptor_of_action {term : Term} {found : Option Action}
    (h : s.action state term = .ok found) : ∃ d, s.descriptor state = .ok d := by
  simp only [action, actionRun, actionPlace] at h
  cases hw : s.recordWord state 1 with
  | error e => simp [hw, bind, Except.bind, Except.map] at h
  | ok word => exact exists_descriptor_of_recordWord hw

theorem exists_descriptor_of_goto {term : Term} {found : Option StateId}
    (h : s.goto state term = .ok found) : ∃ d, s.descriptor state = .ok d := by
  simp only [goto, gotoRun, gotoPlace] at h
  cases hw : s.recordWord state 2 with
  | error e => simp [hw, bind, Except.bind, Except.map] at h
  | ok word => exact exists_descriptor_of_recordWord hw

/-- Every state that has a descriptor passes a test. -/
def everywhere (s : Storage) (test : StateId → Descriptor → Bool) : Bool :=
  (List.range s.states.size).all fun n =>
    (s.descriptor (UInt16.ofNat n)).toOption.all (test (UInt16.ofNat n))

theorem test_of_everywhere {test : StateId → Descriptor → Bool} (h : s.everywhere test = true)
    {d : Descriptor} (hd : s.descriptor state = .ok d) : test state d = true := by
  have hlt : state.toNat < s.states.size := by
    unfold descriptor recordWord at hd
    split at hd
    · rename_i w hw
      have hlt := (Array.getElem?_eq_some_iff.mp hw).1
      omega
    · simp [Except.map] at hd
  have hstate := List.all_eq_true.mp h state.toNat (List.mem_range.mpr hlt)
  rw [UInt16.ofNat_toNat, hd] at hstate
  exact hstate

theorem test_of_action {test : Action → Bool} (h : (s.actionsOf state).all test = true)
    {term : Term} {a : Action} (ha : s.action state term = .ok (some a)) : test a = true :=
  List.all_eq_true.mp h a (mem_actionsOf ha)

end Storage

namespace Tables

/-! ## Flat tables -/

/-- No action pushes without consuming and no state belongs to a skip expression. -/
structure Flat (t : Tables) : Prop where
  pushless : ∀ state term target, t.action state term ≠ .ok (some (.push target))
  skipless : ∀ state d, t.descriptor state = .ok d → d.isSkipped = false

def isFlat (t : Tables) : Bool :=
  t.everywhere fun state d => !d.isSkipped && (t.actionsOf state).all fun
    | .push _ => false
    | _ => true

theorem flat_of_isFlat {t : Tables} (h : t.isFlat = true) : t.Flat := by
  constructor
  · intro state term target ha
    obtain ⟨d, hd⟩ := Storage.exists_descriptor_of_action ha
    have htest := Storage.test_of_everywhere h hd
    simp only [Bool.and_eq_true] at htest
    exact absurd (Storage.test_of_action htest.2 ha) (by simp)
  · intro state d hd
    have htest := Storage.test_of_everywhere h hd
    simp only [Bool.and_eq_true, Bool.not_eq_true'] at htest
    exact htest.1

/-! ## Plain tables -/

/-- Flat tables in which no state starts a nested grammar and every reduction follows a goto. -/
structure Plain (t : Tables) : Prop extends Flat t where
  nestless : ∀ state d, t.descriptor state = .ok d → d.nestIndex? = none
  stayless : ∀ state term r, t.action state term = .ok (some (.reduce r)) → r.stays = false

def isPlain (t : Tables) : Bool :=
  t.isFlat && t.everywhere fun state d => d.nestIndex?.isNone && (t.actionsOf state).all fun
    | .reduce r => !r.stays
    | _ => true

theorem plain_of_isPlain {t : Tables} (h : t.isPlain = true) : t.Plain := by
  obtain ⟨hflat, hall⟩ := (Bool.and_eq_true _ _).mp h
  refine ⟨flat_of_isFlat hflat, fun state d hd => ?_, fun state term r ha => ?_⟩
  · have htest := Storage.test_of_everywhere hall hd
    simp only [Bool.and_eq_true, Option.isNone_iff_eq_none] at htest
    exact htest.1
  · obtain ⟨d, hd⟩ := Storage.exists_descriptor_of_action ha
    have htest := Storage.test_of_everywhere hall hd
    simp only [Bool.and_eq_true] at htest
    simpa using Storage.test_of_action htest.2 ha

/-! ## Orderly tables -/

/-- No reduction builds an empty node that is not skipped content. -/
def EmptyFree (t : Tables) : Prop :=
  ∀ state d term r, t.descriptor state = .ok d → d.isSkipped = false →
    t.action state term = .ok (some (.reduce r)) → r.depth ≠ 0

def isEmptyFree (t : Tables) : Bool :=
  t.everywhere fun state d => d.isSkipped || (t.actionsOf state).all fun
    | .reduce r => r.depth != 0
    | _ => true

theorem emptyFree_of_isEmptyFree {t : Tables} (h : t.isEmptyFree = true) : t.EmptyFree := by
  intro state d term r hd hskip ha
  have htest := Storage.test_of_everywhere h hd
  simp only [hskip, Bool.false_or] at htest
  simpa using Storage.test_of_action htest ha

/-- No empty node can get below a frame: there is none, or skipped items carry no frames. -/
def Orderly (t : Tables) : Prop := t.EmptyFree ∨ t.Flat

def isOrderly (t : Tables) : Bool := t.isEmptyFree || t.isFlat

theorem orderly_of_isOrderly {t : Tables} (h : t.isOrderly = true) : t.Orderly :=
  ((Bool.or_eq_true _ _).mp h).imp emptyFree_of_isEmptyFree flat_of_isFlat

/-! ## Hosts of nested grammars -/

/-- No state starts a nested grammar. -/
def Nestless (t : Tables) : Prop := ∀ state d, t.descriptor state = .ok d → d.nestIndex? = none

def isNestless (t : Tables) : Bool := t.everywhere fun _ d => d.nestIndex?.isNone

theorem nestless_of_isNestless {t : Tables} (h : t.isNestless = true) : t.Nestless := by
  intro state d hd
  simpa using Storage.test_of_everywhere h hd

/-- The tables are orderly, and so are those that are nested in them, as far as a state starts them;
the nested ones start no grammars themselves. -/
structure Layered (t : Tables) : Prop where
  orderly : t.Orderly
  nested : ∀ state d i g, t.descriptor state = .ok d → d.nestIndex? = some i →
    t.nested[i]? = some g → g.tables.Orderly ∧ g.tables.Nestless

theorem Nestless.layered {t : Tables} (h : t.Nestless) (ho : t.Orderly) : t.Layered := by
  refine ⟨ho, fun state d i g hd hi _ => ?_⟩
  rw [h _ _ hd] at hi
  cases hi

/-- The tables and those nested in them are orderly, the nested ones start no grammars themselves,
and every state that starts a nested grammar consumes its placeholder, which is not the end of
input. -/
structure Mountable (t : Tables) : Prop where
  orderly : t.Orderly
  nested_orderly : ∀ g ∈ t.nested, g.tables.Orderly
  nested_nestless : ∀ g ∈ t.nested, ∀ state d, g.tables.descriptor state = .ok d →
    d.nestIndex? = none
  mounts : ∀ state d i g, t.descriptor state = .ok d → d.nestIndex? = some i →
    t.nested[i]? = some g → g.placeholder ≠ Term.eof ∧
      ∃ term a, t.resolve state g.placeholder = .ok (some (term, a)) ∧ a.consumes = true

theorem Mountable.layered {t : Tables} (h : t.Mountable) : t.Layered where
  orderly := h.orderly
  nested _ _ _ g _ _ hg :=
    have hmem : g ∈ t.nested := List.mem_of_getElem? hg
    ⟨h.nested_orderly g hmem, h.nested_nestless g hmem⟩

/-- The state consumes the placeholder of a grammar that is nested there. -/
def consumesPlaceholder (t : Tables) (state : StateId) (g : Nested Tables) : Bool :=
  g.placeholder != Term.eof && match t.resolve state g.placeholder with
    | .ok (some (_, a)) => a.consumes
    | _ => false

def isMountable (t : Tables) : Bool :=
  t.isOrderly &&
  (t.nested.all fun g =>
    g.tables.isOrderly && g.tables.everywhere fun _ d => d.nestIndex?.isNone) &&
  t.everywhere fun state d =>
    (d.nestIndex?.bind fun i => t.nested[i]?).all (t.consumesPlaceholder state)

theorem mountable_of_isMountable {t : Tables} (h : t.isMountable = true) : t.Mountable := by
  simp only [isMountable, Bool.and_eq_true, List.all_eq_true] at h
  obtain ⟨⟨horderly, hnested⟩, hstates⟩ := h
  refine ⟨orderly_of_isOrderly horderly, fun g hg => orderly_of_isOrderly (hnested g hg).1,
    fun g hg state d hd => ?_, fun state d i g hd hi hg => ?_⟩
  · simpa using Storage.test_of_everywhere (hnested g hg).2 hd
  · have htest := Storage.test_of_everywhere hstates hd
    simp only [hi, Option.bind_some, hg, Option.all_some, consumesPlaceholder, Bool.and_eq_true,
      bne_iff_ne] at htest
    obtain ⟨hne, hresolve⟩ := htest
    split at hresolve
    · rename_i term a heq
      exact ⟨hne, term, a, heq, hresolve⟩
    · cases hresolve

end Tables

theorem Grammar.sum_plain : Grammar.sum.Plain := Tables.plain_of_isPlain rfl

end LRMachine
