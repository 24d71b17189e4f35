/-!
# JSON values

Values keep apart the integers that a table document may hold, written as plain digits and below
2^64, from all other numbers. The members of an object stay in the order of the text; of several
under one key the last counts.
-/

namespace LRMachine

/-- A JSON value. -/
inductive Json where
  | null
  | bool (b : Bool)
  /-- An integer from 0 to 2^64 - 1 without sign, fraction and exponent. -/
  | natural (n : Nat)
  /-- Any other number, as it is written. -/
  | number (literal : String)
  | string (text : String)
  | array (elements : List Json)
  | object (members : List (String × Json))

namespace Json

/-- The value under a key of an object. -/
def get? (key : String) : Json → Option Json
  | object members => members.reverse.lookup key
  | _ => none

/-- The integer of a value. -/
def natural? : Json → Option Nat
  | natural n => some n
  | _ => none

/-- The text of a value. -/
def string? : Json → Option String
  | string text => some text
  | _ => none

/-- The elements of a value. -/
def array? : Json → Option (List Json)
  | array elements => some elements
  | _ => none

/-- The array of the numbers of a list. -/
def ofNaturals (ns : List Nat) : Json := array (ns.map natural)

theorem mem_of_lookup {α : Type} {key : String} {a : α} :
    ∀ {l : List (String × α)}, l.lookup key = some a → (key, a) ∈ l := by
  intro l
  induction l with
  | nil => intro h; simp at h
  | cons head rest ih =>
    intro h
    rw [List.lookup_cons] at h
    by_cases hk : key == head.1
    · simp only [hk, Option.some.injEq] at h
      have : head = (key, a) := Prod.ext (by simpa using (beq_iff_eq.mp hk).symm) h
      exact this ▸ List.mem_cons_self
    · simp only [hk] at h
      exact List.mem_cons_of_mem _ (ih h)

theorem sizeOf_get?_lt {key : String} {j v : Json} (h : j.get? key = some v) :
    sizeOf v < sizeOf j := by
  cases j with
  | object members =>
    have hm := List.mem_reverse.mp (mem_of_lookup h)
    have := List.sizeOf_lt_of_mem hm
    simp only [Prod.mk.sizeOf_spec] at this
    simp only [object.sizeOf_spec]
    omega
  | _ => simp [get?] at h

theorem sizeOf_lt_of_array? {j v : Json} {elements : List Json} (h : j.array? = some elements)
    (hv : v ∈ elements) : sizeOf v < sizeOf j := by
  cases j with
  | array es =>
    simp only [array?, Option.some.injEq] at h
    subst h
    have := List.sizeOf_lt_of_mem hv
    simp only [array.sizeOf_spec]
    omega
  | _ => simp [array?] at h

end Json

end LRMachine
