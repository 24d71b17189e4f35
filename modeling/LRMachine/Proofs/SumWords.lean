import LRMachine.Proofs.SingleGrammar

/-!
# The words of sums

A sum is a number with any number of summands behind it, with blanks anywhere. A word is viable if
some sum begins with it; the place where a list of tokens stops being viable is where a parse of it
fails (`FaultAt`). The terms of a sum alternate (`sumWord_eq`), so a viable word goes on with one
term only (`viable_append_iff`).
-/

namespace LRMachine.Grammar

/-- The words of sums: a number, and behind it any number of times a plus and a number. -/
def sumWord : Nat → List Term
  | 0 => [3]
  | k + 1 => sumWord k ++ [5, 3]

/-- The text of the tree of a sum. -/
def sumText : Nat → String
  | 0 => "Sum[Num]"
  | k + 1 => "Sum[" ++ sumText k ++ " Plus Num]"

/-- The terms of the tokens that are not blanks. -/
def significant (tokens : List Token) : List Term := (tokens.map Token.term).filter (· != 8)

/-- Some sum begins with the word. -/
def Viable (w : List Term) : Prop := ∃ k, w <+: sumWord k

/-- The place where a list of tokens goes wrong, if it is no sum: the token with which what was read
turns from viable to not viable, or the end of input if there is no such token. -/
inductive FaultAt (tokens : List Token) : Nat → Prop where
  | token {before after : List Token} {token : Token}
    (hsplit : bodyTokens tokens = before ++ token :: after)
    (hbefore : Viable (significant before)) (htoken : ¬ Viable (significant (before ++ [token]))) :
    FaultAt tokens token.start
  | ending (h : Viable (significant (bodyTokens tokens))) :
    FaultAt tokens (endToken tokens 0).start

theorem significant_append (a b : List Token) :
    significant (a ++ b) = significant a ++ significant b := by
  simp [significant]

theorem significant_blank {token : Token} (h : token.term = 8) : significant [token] = [] := by
  simp [significant, h]

theorem significant_singleton {token : Token} (h : token.term ≠ 8) :
    significant [token] = [token.term] := by
  simp [significant, h]

/-! ## The terms alternate -/

/-- The term at a place of a sum. -/
def sumTerm (i : Nat) : Term := if i % 2 = 0 then 3 else 5

theorem sumWord_eq (k : Nat) : sumWord k = (List.range (2 * k + 1)).map sumTerm := by
  induction k with
  | zero => rfl
  | succ k ih =>
    have hplus : sumTerm (2 * k + 1) = 5 := if_neg (by omega)
    have hnumber : sumTerm (2 * k + 1 + 1) = 3 := if_pos (by omega)
    rw [sumWord, ih, show 2 * (k + 1) + 1 = 2 * k + 1 + 1 + 1 by omega,
      List.range_succ (n := 2 * k + 1 + 1), List.range_succ (n := 2 * k + 1)]
    simp only [List.map_append, List.map_cons, List.map_nil, hplus, hnumber, List.append_assoc]
    rfl

theorem length_sumWord (k : Nat) : (sumWord k).length = 2 * k + 1 := by
  rw [sumWord_eq, List.length_map, List.length_range]

theorem sumTerm_length_sumWord (k : Nat) : sumTerm (sumWord k).length = 5 := by
  rw [length_sumWord]
  exact if_neg (by omega)

theorem sumTerm_length_plus (k : Nat) : sumTerm (sumWord k ++ [5]).length = 3 := by
  rw [List.length_append, length_sumWord]
  exact if_pos (by simp; omega)

theorem sumWord_inj {j k : Nat} (h : sumWord j = sumWord k) : j = k := by
  have hlength := congrArg List.length h
  rw [length_sumWord, length_sumWord] at hlength
  omega

theorem viable_iff {w : List Term} : Viable w ↔ w = (List.range w.length).map sumTerm := by
  constructor
  · rintro ⟨k, hk⟩
    have hlength := hk.length_le
    have htake := List.prefix_iff_eq_take.mp hk
    rwa [sumWord_eq, ← List.map_take, List.take_range, Nat.min_eq_left] at htake
    rwa [length_sumWord] at hlength
  · intro h
    refine ⟨w.length, ?_⟩
    rw [sumWord_eq, show 2 * w.length + 1 = w.length + (w.length + 1) by omega, List.range_add,
      List.map_append, ← h]
    exact List.prefix_append _ _

/-- A viable word goes on as the terms alternate, and in no other way. -/
theorem viable_append_iff {w : List Term} {term : Term} :
    Viable (w ++ [term]) ↔ Viable w ∧ term = sumTerm w.length := by
  rw [viable_iff, viable_iff, List.length_append, List.length_singleton, List.range_succ,
    List.map_append]
  constructor
  · intro h
    obtain ⟨hword, hterm⟩ := List.append_inj h (by simp)
    exact ⟨hword, by simpa using hterm⟩
  · rintro ⟨hword, rfl⟩
    rw [← hword]
    rfl

theorem viable_nil : Viable [] := ⟨0, List.nil_prefix⟩

theorem viable_sumWord (k : Nat) : Viable (sumWord k) := ⟨k, List.prefix_rfl⟩

theorem viable_sumWord_plus (k : Nat) : Viable (sumWord k ++ [5]) := by
  refine ⟨k + 1, [3], ?_⟩
  rw [sumWord, List.append_assoc]
  rfl

theorem Viable.of_append {a b : List Term} (h : Viable (a ++ b)) : Viable a := by
  obtain ⟨k, hk⟩ := h
  exact ⟨k, (List.prefix_append a b).trans hk⟩

end LRMachine.Grammar
