import LRMachine.Json.Reader
import LRMachine.Tables.Check

/-!
# Table documents

A table document is a JSON object with the keys `start`, `states`, `actions` and `gotos`, and where
they apply `specializations`, `terms` (the names) and `nested`, whose entries have `name`, `end`,
`placeholder` and under `grammar` a document again. `Tables.ofJson` reads a document and checks the
tables; `Tables.toJson` writes one.
-/

namespace LRMachine

namespace Document

/-- An integer under a key. -/
def natural (doc : Json) (key : String) : Except Error Nat :=
  match (doc.get? key).bind Json.natural? with
  | some n => .ok n
  | none => .error (.document (.noInteger key))

/-- An integer of 16 bits. -/
def toCell (key : String) (n : Nat) : Except Error UInt16 :=
  if n < 65536 then .ok (UInt16.ofNat n) else .error (.document (.outOfRange key n))

/-- An integer of 32 bits. -/
def toWord (key : String) (n : Nat) : Except Error UInt32 :=
  if n < 4294967296 then .ok (UInt32.ofNat n) else .error (.document (.outOfRange key n))

/-- A cell under a key. -/
def cell (doc : Json) (key : String) : Except Error UInt16 := do
  toCell key (← natural doc key)

/-- The elements under a key; an optional key may be absent. -/
def elements (doc : Json) (key : String) (isRequired : Bool) : Except Error (List Json) :=
  match doc.get? key with
  | some (.array values) => .ok values
  | some _ => .error (.document (.notArray key))
  | none => if isRequired then .error (.document (.missing key)) else .ok []

/-- An element of an array of integers. -/
def element (key : String) (v : Json) : Except Error Nat :=
  match v with
  | .natural n => .ok n
  | _ => .error (.document (.strayElement key))

/-- The cells under a key. -/
def cells (doc : Json) (key : String) (isRequired : Bool) : Except Error (Array UInt16) := do
  let values ← elements doc key isRequired
  let cells ← values.mapM fun v => do toCell key (← element key v)
  .ok cells.toArray

/-- The words under a key. -/
def words (doc : Json) (key : String) : Except Error (Array UInt32) := do
  let values ← elements doc key true
  let words ← values.mapM fun v => do toWord key (← element key v)
  .ok words.toArray

/-- The text of a value; a value of another kind counts as empty. -/
def textOf (v : Option Json) : String := (v.bind Json.string?).getD ""

/-- The names of the terms; something other than an array counts as none. -/
def termNames (doc : Json) : List String :=
  match (doc.get? "terms").bind Json.array? with
  | some terms => terms.map fun t => textOf (some t)
  | none => []

/-- The arrays of a document. -/
def storage (doc : Json) (start : StateId) : Except Error Storage := do
  let states ← words doc "states"
  let actions ← cells doc "actions" true
  let gotos ← cells doc "gotos" true
  let specializations ← cells doc "specializations" false
  .ok { start, states, actions, gotos, specializations }

/-- The entries of the nested grammars. -/
def nestedEntries (doc : Json) : Except Error (List Json) := elements doc "nested" false

theorem sizeOf_lt_of_nestedEntries {doc v : Json} {entries : List Json}
    (h : nestedEntries doc = .ok entries) (hv : v ∈ entries) : sizeOf v < sizeOf doc := by
  unfold nestedEntries elements at h
  split at h
  · rename_i values hdoc
    simp only [Except.ok.injEq] at h
    subst h
    exact Nat.lt_trans (Json.sizeOf_lt_of_array? rfl hv) (Json.sizeOf_get?_lt hdoc)
  · simp at h
  · simp only [Bool.false_eq_true, if_false, Except.ok.injEq] at h
    subst h
    simp at hv

end Document

namespace Tables

open Document

/-- The checked tables of a document. The nested grammars come first, in order. -/
def ofJson (doc : Json) : Except Error Tables := do
  let start ← cell doc "start"
  let nested ←
    match h : nestedEntries doc with
    | .error e => .error e
    | .ok entries =>
      entries.attach.mapM fun ⟨entry, hentry⟩ => do
        match hgrammar : entry.get? "grammar" with
        | none => .error (.document .noGrammar)
        | some grammar =>
          have : sizeOf grammar < sizeOf doc :=
            Nat.lt_trans (Json.sizeOf_get?_lt hgrammar) (sizeOf_lt_of_nestedEntries h hentry)
          let tables ← ofJson grammar
          let closing ← cell entry "end"
          let placeholder ← cell entry "placeholder"
          .ok (Nested.mk (textOf (entry.get? "name")) tables closing placeholder)
  let tables ← make (← storage doc start) nested
  .ok (tables.withNames (termNames doc))
termination_by sizeOf doc

/-- The checked tables of a document's text. -/
def ofText (text : String) : Except Error Tables :=
  match Json.read? text with
  | some doc => ofJson doc
  | none => .error (.document (.malformed "not a JSON value"))

mutual

/-- The document of tables. -/
def toJson : Tables → Json
  | ⟨s, nested, names⟩ =>
    .object [
      ("start", .natural s.start.toNat),
      ("states", .ofNaturals (s.states.toList.map UInt32.toNat)),
      ("actions", .ofNaturals (s.actions.toList.map UInt16.toNat)),
      ("gotos", .ofNaturals (s.gotos.toList.map UInt16.toNat)),
      ("specializations", .ofNaturals (s.specializations.toList.map UInt16.toNat)),
      ("terms", .array (names.map .string)),
      ("nested", .array (nestedToJson nested))]

/-- The entries of nested grammars in a document. -/
def nestedToJson : List (Nested Tables) → List Json
  | [] => []
  | ⟨name, tables, closing, placeholder⟩ :: rest =>
    .object [
      ("name", .string name),
      ("end", .natural closing.toNat),
      ("placeholder", .natural placeholder.toNat),
      ("grammar", tables.toJson)] :: nestedToJson rest

end

end Tables

end LRMachine
