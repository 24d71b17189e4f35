/-!
# Decimal digits

The number that a list of decimal digits writes. `ofDigits_toDigits` says that the digits of a
number write that number.
-/

namespace LRMachine.Text

/-- The value of a decimal digit. -/
def digit (c : Char) : Nat := c.toNat - '0'.toNat

/-- The number that decimal digits write. -/
def ofDigits (digits : List Char) : Nat := digits.foldl (fun n c => n * 10 + digit c) 0

theorem ofDigits_append_singleton (digits : List Char) (c : Char) :
    ofDigits (digits ++ [c]) = ofDigits digits * 10 + digit c := by
  simp [ofDigits]

theorem digit_digitChar {n : Nat} (h : n < 10) : digit n.digitChar = n := by
  match n, h with
  | 0, _ | 1, _ | 2, _ | 3, _ | 4, _ | 5, _ | 6, _ | 7, _ | 8, _ | 9, _ => rfl

theorem ofDigits_toDigits (n : Nat) : ofDigits (Nat.toDigits 10 n) = n := by
  induction n using Nat.strongRecOn with
  | _ n ih =>
    by_cases h : n < 10
    · rw [Nat.toDigits_of_lt_base h]
      simp [ofDigits, digit_digitChar h]
    · have hd : 0 < n / 10 := by omega
      have e := Nat.toDigits_append_toDigits (by omega : 1 < 10) hd (by omega : n % 10 < 10)
      rw [Nat.div_add_mod] at e
      rw [← e, Nat.toDigits_of_lt_base (by omega : n % 10 < 10), ofDigits_append_singleton,
        ih (n / 10) (by omega), digit_digitChar (by omega)]
      omega

end LRMachine.Text
