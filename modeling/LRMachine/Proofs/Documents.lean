import LRMachine.Proofs.CheckedTables

/-!
# Tables and their documents

`Document.Describes` says what it means that a document describes tables: the unsigned integers
under its keys are the start state and the arrays, element by element, its texts are the names, and
each of its nested entries describes a nested grammar in the same way. A document gives tables
exactly if it describes them and the tables are valid, so nothing is truncated on the way and
nothing in them, at any depth, is unchecked (`ofJson_iff_describes_and_valid`). The document that is
written for tables describes them and gives them back exactly if they are valid (`ofJson_exact`).
-/

namespace LRMachine

/-! ## Traversals -/

/-- A traversal with a function that undoes `g` undoes the map of `g`. -/
theorem mapM_eq_ok_iff_eq_map {α β : Type} {f : α → Except Error β} {g : β → α}
    (h : ∀ a b, f a = .ok b ↔ a = g b) :
    ∀ {xs : List α} {ys : List β}, xs.mapM f = .ok ys ↔ xs = ys.map g := by
  intro xs
  induction xs with
  | nil =>
    intro ys
    cases ys <;> simp [pure, Except.pure]
  | cons x xs ih =>
    intro ys
    simp only [List.mapM_cons, bind_eq_ok_iff, h, ih]
    constructor
    · rintro ⟨y, rfl, ys', rfl, ⟨⟩⟩
      rfl
    · cases ys with
      | nil => simp
      | cons y ys' =>
        intro heq
        obtain ⟨hx, hxs⟩ := List.cons.inj heq
        exact ⟨y, hx, ys', hxs, rfl⟩

namespace Document

/-! ## What a document describes -/

/-- The values of the array under a key; an absent key stands for no values. -/
def Lists (doc : Json) (key : String) (values : List Json) : Prop :=
  doc.get? key = some (.array values) ∨ doc.get? key = none ∧ values = []

/-- The arrays of a grammar and the names of its terms are those of the document. -/
structure Fields (doc : Json) (s : Storage) (names : List String) : Prop where
  start : doc.get? "start" = some (.natural s.start.toNat)
  states : doc.get? "states" = some (.array (s.states.toList.map (.natural ·.toNat)))
  actions : doc.get? "actions" = some (.array (s.actions.toList.map (.natural ·.toNat)))
  gotos : doc.get? "gotos" = some (.array (s.gotos.toList.map (.natural ·.toNat)))
  specializations : Lists doc "specializations" (s.specializations.toList.map (.natural ·.toNat))
  names : names = termNames doc

/-- The name and the terms of a nested grammar are those of the entry. -/
structure EntryFields (entry : Json) (name : String) (closing placeholder : Term) : Prop where
  name : name = textOf (entry.get? "name")
  closing : entry.get? "end" = some (.natural closing.toNat)
  placeholder : entry.get? "placeholder" = some (.natural placeholder.toNat)

mutual

/-- The document describes the tables. -/
inductive Describes : Json → Tables → Prop where
  | intro {doc : Json} {s : Storage} {nested : List (Nested Tables)} {names : List String}
    {entries : List Json} (fields : Fields doc s names) (lists : Lists doc "nested" entries)
    (each : DescribesEach entries nested) : Describes doc ⟨s, nested, names⟩

/-- The entries describe the nested grammars, one by one. -/
inductive DescribesEach : List Json → List (Nested Tables) → Prop where
  | nil : DescribesEach [] []
  | cons {entry grammar : Json} {entries : List Json} {name : String} {tables : Tables}
    {closing placeholder : Term} {nested : List (Nested Tables)}
    (fields : EntryFields entry name closing placeholder)
    (grammar_eq : entry.get? "grammar" = some grammar) (describes : Describes grammar tables)
    (each : DescribesEach entries nested) :
    DescribesEach (entry :: entries) (⟨name, tables, closing, placeholder⟩ :: nested)

end

/-! ## Reading the fields -/

section Fields

variable {doc v : Json} {key : String}

theorem natural_eq_ok_iff {n : Nat} :
    natural doc key = .ok n ↔ doc.get? key = some (.natural n) := by
  unfold natural
  cases doc.get? key with
  | none => simp
  | some v => cases v <;> simp [Json.natural?]

theorem toCell_eq_ok_iff {n : Nat} {c : UInt16} : toCell key n = .ok c ↔ n = c.toNat := by
  unfold toCell
  constructor
  · intro h
    split at h
    · cases h
      rename_i hlt
      exact (UInt16.toNat_ofNat_of_lt hlt).symm
    · cases h
  · rintro rfl
    rw [if_pos c.toNat_lt, UInt16.ofNat_toNat]

theorem toWord_eq_ok_iff {n : Nat} {w : UInt32} : toWord key n = .ok w ↔ n = w.toNat := by
  unfold toWord
  constructor
  · intro h
    split at h
    · cases h
      rename_i hlt
      exact (UInt32.toNat_ofNat_of_lt hlt).symm
    · cases h
  · rintro rfl
    rw [if_pos w.toNat_lt, UInt32.ofNat_toNat]

theorem cell_eq_ok_iff {c : UInt16} :
    cell doc key = .ok c ↔ doc.get? key = some (.natural c.toNat) := by
  simp only [cell, bind_eq_ok_iff, toCell_eq_ok_iff, exists_eq_right, natural_eq_ok_iff]

theorem element_eq_ok_iff {n : Nat} : element key v = .ok n ↔ v = .natural n := by
  unfold element
  split <;> simp_all

theorem elements_eq_ok_iff {values : List Json} :
    elements doc key true = .ok values ↔ doc.get? key = some (.array values) := by
  unfold elements
  split <;> simp_all

theorem elements_eq_ok_iff_lists {values : List Json} :
    elements doc key false = .ok values ↔ Lists doc key values := by
  unfold elements Lists
  cases doc.get? key with
  | none => simp [eq_comm]
  | some v => cases v <;> simp

theorem mapM_toCell_eq_ok_iff {values : List Json} {cs : List UInt16} :
    (values.mapM fun v => do toCell key (← element key v)) = .ok cs ↔
      values = cs.map (.natural ·.toNat) :=
  mapM_eq_ok_iff_eq_map fun v c => by
    simp only [bind_eq_ok_iff, toCell_eq_ok_iff, exists_eq_right, element_eq_ok_iff]

theorem mapM_toWord_eq_ok_iff {values : List Json} {ws : List UInt32} :
    (values.mapM fun v => do toWord key (← element key v)) = .ok ws ↔
      values = ws.map (.natural ·.toNat) :=
  mapM_eq_ok_iff_eq_map fun v w => by
    simp only [bind_eq_ok_iff, toWord_eq_ok_iff, exists_eq_right, element_eq_ok_iff]

theorem toArray_eq_iff {α : Type} {l : List α} {a : Array α} :
    (Except.ok l.toArray : Except Error (Array α)) = .ok a ↔ l = a.toList := by
  rw [Except.ok.injEq, ← Array.toList_inj]

theorem cells_eq_ok_iff {a : Array UInt16} :
    cells doc key true = .ok a ↔
      doc.get? key = some (.array (a.toList.map (.natural ·.toNat))) := by
  simp only [cells, bind_eq_ok_iff, elements_eq_ok_iff, mapM_toCell_eq_ok_iff, toArray_eq_iff,
    exists_eq_right]

theorem cells_eq_ok_iff_lists {a : Array UInt16} :
    cells doc key false = .ok a ↔ Lists doc key (a.toList.map (.natural ·.toNat)) := by
  simp only [cells, bind_eq_ok_iff, elements_eq_ok_iff_lists, mapM_toCell_eq_ok_iff, toArray_eq_iff,
    exists_eq_right]

theorem words_eq_ok_iff {a : Array UInt32} :
    words doc key = .ok a ↔ doc.get? key = some (.array (a.toList.map (.natural ·.toNat))) := by
  simp only [words, bind_eq_ok_iff, elements_eq_ok_iff, mapM_toWord_eq_ok_iff, toArray_eq_iff,
    exists_eq_right]

theorem fields_iff {s : Storage} {names : List String} :
    Fields doc s names ↔
      cell doc "start" = .ok s.start ∧ storage doc s.start = .ok s ∧ names = termNames doc := by
  obtain ⟨start, states, actions, gotos, specializations⟩ := s
  simp only [storage, bind_eq_ok_iff, words_eq_ok_iff, cells_eq_ok_iff, cells_eq_ok_iff_lists,
    cell_eq_ok_iff, Except.ok.injEq, Storage.mk.injEq, true_and]
  constructor
  · rintro ⟨hstart, hstates, hactions, hgotos, hspecializations, hnames⟩
    exact ⟨hstart, ⟨_, hstates, _, hactions, _, hgotos, _, hspecializations, rfl, rfl, rfl, rfl⟩,
      hnames⟩
  · rintro ⟨hstart, ⟨_, hstates, _, hactions, _, hgotos, _, hspecializations, rfl, rfl, rfl, rfl⟩,
      hnames⟩
    exact ⟨hstart, hstates, hactions, hgotos, hspecializations, hnames⟩

theorem start_of_storage {start : StateId} {s : Storage} (h : storage doc start = .ok s) :
    s.start = start := by
  simp only [storage, bind_eq_ok_iff, Except.ok.injEq] at h
  obtain ⟨_, -, _, -, _, -, _, -, rfl⟩ := h
  rfl

end Fields

end Document

/-! ## Reading a whole document -/

namespace Tables

open Document

/-- The nested grammar of an entry. -/
def ofEntry (entry : Json) : Except Error (Nested Tables) := do
  match entry.get? "grammar" with
  | none => .error (.document .noGrammar)
  | some grammar =>
    let tables ← ofJson grammar
    let closing ← cell entry "end"
    let placeholder ← cell entry "placeholder"
    .ok (Nested.mk (textOf (entry.get? "name")) tables closing placeholder)

theorem ofEntry_eq_ok_iff {entry : Json} {name : String} {tables : Tables}
    {closing placeholder : Term} :
    ofEntry entry = .ok ⟨name, tables, closing, placeholder⟩ ↔
      EntryFields entry name closing placeholder ∧
        ∃ grammar, entry.get? "grammar" = some grammar ∧ ofJson grammar = .ok tables := by
  unfold ofEntry
  cases entry.get? "grammar" with
  | none => simp
  | some grammar =>
    simp only [bind_eq_ok_iff, cell_eq_ok_iff, Except.ok.injEq, Nested.mk.injEq, Option.some.injEq,
      exists_eq_left']
    constructor
    · rintro ⟨_, htables, _, hclosing, _, hplaceholder, rfl, rfl, rfl, rfl⟩
      exact ⟨⟨rfl, hclosing, hplaceholder⟩, htables⟩
    · rintro ⟨⟨hname, hclosing, hplaceholder⟩, htables⟩
      exact ⟨_, htables, _, hclosing, _, hplaceholder, hname.symm, rfl, rfl, rfl⟩

/-- The reading of a document, where every entry is read in the same way. -/
theorem ofJson_eq (doc : Json) :
    ofJson doc = (do
      let start ← cell doc "start"
      let nested ← (← nestedEntries doc).mapM ofEntry
      let tables ← make (← storage doc start) nested
      .ok (tables.withNames (termNames doc)) : Except Error Tables) := by
  rw [ofJson]
  split
  · rename_i e hentries
    rw [hentries]
    rfl
  · rename_i entries hentries
    rw [List.mapM_subtype (g := ofEntry), List.unattach_attach]
    · rw [hentries]
      rfl
    · intro entry hentry
      unfold ofEntry
      dsimp only
      split <;> simp_all

theorem ofJson_eq_ok_iff {doc : Json} {s : Storage} {nested : List (Nested Tables)}
    {names : List String} :
    ofJson doc = .ok ⟨s, nested, names⟩ ↔
      Fields doc s names ∧ s.check nested.length = .ok () ∧
        ∃ entries, Lists doc "nested" entries ∧ entries.mapM ofEntry = .ok nested := by
  simp only [ofJson_eq, bind_eq_ok_iff, make_eq_ok_iff, nestedEntries, elements_eq_ok_iff_lists,
    fields_iff]
  constructor
  · rintro ⟨start, hstart, entries, hentries, nested, hnested, storage, hstorage, _, ⟨hcheck, rfl⟩,
      ⟨⟩⟩
    obtain rfl := start_of_storage hstorage
    exact ⟨⟨hstart, hstorage, rfl⟩, hcheck, entries, hentries, hnested⟩
  · rintro ⟨⟨hstart, hstorage, rfl⟩, hcheck, entries, hentries, hnested⟩
    exact ⟨_, hstart, entries, hentries, _, hnested, _, hstorage, _, ⟨hcheck, rfl⟩, rfl⟩

theorem valid_iff {s : Storage} {nested : List (Nested Tables)} {names : List String} :
    Valid ⟨s, nested, names⟩ ↔
      s.check nested.length = .ok () ∧ ∀ g ∈ nested, g.tables.Valid :=
  ⟨fun h => ⟨h.check_eq, fun _ hg => h.of_mem hg⟩, fun ⟨checked, parts⟩ => .intro checked parts⟩

theorem mapM_ofEntry_cons_eq_ok_iff {entries : List Json} {g : Nested Tables}
    {nested : List (Nested Tables)} :
    entries.mapM ofEntry = .ok (g :: nested) ↔
      ∃ entry rest, entries = entry :: rest ∧ ofEntry entry = .ok g ∧
        rest.mapM ofEntry = .ok nested := by
  cases entries with
  | nil => simp [pure, Except.pure]
  | cons entry rest =>
    simp only [List.mapM_cons, bind_eq_ok_iff, List.cons.injEq]
    constructor
    · rintro ⟨_, hg, _, hnested, ⟨⟩⟩
      exact ⟨_, _, ⟨rfl, rfl⟩, hg, hnested⟩
    · rintro ⟨_, _, ⟨rfl, rfl⟩, hg, hnested⟩
      exact ⟨_, hg, _, hnested, rfl⟩

mutual

theorem ofJson_iff_describes_and_valid :
    ∀ (t : Tables) (doc : Json), ofJson doc = .ok t ↔ Describes doc t ∧ t.Valid
  | ⟨s, nested, names⟩, doc => by
    rw [ofJson_eq_ok_iff, valid_iff]
    constructor
    · rintro ⟨hfields, hcheck, entries, hlists, hnested⟩
      obtain ⟨heach, hvalid⟩ := (mapM_ofEntry_iff nested entries).mp hnested
      exact ⟨.intro hfields hlists heach, hcheck, hvalid⟩
    · rintro ⟨⟨hfields, hlists, heach⟩, hcheck, hvalid⟩
      exact ⟨hfields, hcheck, _, hlists, (mapM_ofEntry_iff nested _).mpr ⟨heach, hvalid⟩⟩

theorem mapM_ofEntry_iff :
    ∀ (nested : List (Nested Tables)) (entries : List Json),
      entries.mapM ofEntry = .ok nested ↔
        DescribesEach entries nested ∧ ∀ g ∈ nested, g.tables.Valid
  | [], entries => by
    constructor
    · intro h
      cases entries with
      | nil => exact ⟨.nil, by simp⟩
      | cons entry rest =>
        simp only [List.mapM_cons, bind_eq_ok_iff] at h
        obtain ⟨_, -, _, -, ⟨⟩⟩ := h
    · rintro ⟨⟨⟩, -⟩
      rfl
  | ⟨name, tables, closing, placeholder⟩ :: nested, entries => by
    rw [mapM_ofEntry_cons_eq_ok_iff, List.forall_mem_cons]
    constructor
    · rintro ⟨entry, rest, rfl, hentry, hnested⟩
      obtain ⟨hfields, grammar, hgrammar, htables⟩ := ofEntry_eq_ok_iff.mp hentry
      obtain ⟨hdescribes, hvalid⟩ := (ofJson_iff_describes_and_valid tables grammar).mp htables
      obtain ⟨heach, hvalids⟩ := (mapM_ofEntry_iff nested rest).mp hnested
      exact ⟨.cons hfields hgrammar hdescribes heach, hvalid, hvalids⟩
    · rintro ⟨hdescribes, hvalid, hvalids⟩
      cases hdescribes with
      | cons hfields hgrammar hdescribes heach =>
        refine ⟨_, _, rfl, ofEntry_eq_ok_iff.mpr ⟨hfields, _, hgrammar, ?_⟩,
          (mapM_ofEntry_iff nested _).mpr ⟨heach, hvalids⟩⟩
        exact (ofJson_iff_describes_and_valid tables _).mpr ⟨hdescribes, hvalid⟩

end

/-! ## The document that is written -/

theorem fields_toJson (s : Storage) (nested : List (Nested Tables)) (names : List String) :
    Fields (toJson ⟨s, nested, names⟩) s names where
  start := by simp [toJson, Json.get?, List.lookup_cons]
  states := by simp [toJson, Json.get?, List.lookup_cons, Json.ofNaturals, Function.comp_def]
  actions := by simp [toJson, Json.get?, List.lookup_cons, Json.ofNaturals, Function.comp_def]
  gotos := by simp [toJson, Json.get?, List.lookup_cons, Json.ofNaturals, Function.comp_def]
  specializations := .inl <| by
    simp [toJson, Json.get?, List.lookup_cons, Json.ofNaturals, Function.comp_def]
  names := by
    simp [toJson, Json.get?, List.lookup_cons, termNames, textOf, Json.array?, Json.string?,
      Function.comp_def]

mutual

/-- The document that is written for tables describes them. -/
theorem describes_toJson : ∀ t : Tables, Describes t.toJson t
  | ⟨s, nested, names⟩ =>
    .intro (fields_toJson s nested names) (.inl (by simp [toJson, Json.get?]))
      (describesEach_nestedToJson nested)

theorem describesEach_nestedToJson :
    ∀ nested : List (Nested Tables), DescribesEach (nestedToJson nested) nested
  | [] => by
    rw [nestedToJson]
    exact .nil
  | ⟨name, tables, closing, placeholder⟩ :: nested => by
    rw [nestedToJson]
    exact .cons ⟨rfl, rfl, rfl⟩ rfl (describes_toJson tables) (describesEach_nestedToJson nested)

end

/-- Reading a document is exact at every depth: what is written for tables is read back exactly if
the tables are valid, and every document that is read describes the tables that it gives, which are
valid. -/
theorem ofJson_exact :
    (∀ t : Tables, ofJson t.toJson = .ok t ↔ t.Valid) ∧
      ∀ (doc : Json) (t : Tables), ofJson doc = .ok t ↔ Describes doc t ∧ t.Valid := by
  have hread := fun doc t => ofJson_iff_describes_and_valid t doc
  refine ⟨fun t => ?_, hread⟩
  rw [hread]
  exact and_iff_right (describes_toJson t)

end Tables

end LRMachine
