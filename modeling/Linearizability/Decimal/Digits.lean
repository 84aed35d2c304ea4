/-! # Decimal digits

A natural number is written with its digits, most significant first and without leading zeros.
-/

namespace Linearizability.Decimal

/-- The digits of a number, most significant first; zero is written with one digit. -/
def digits (n : Nat) : List Nat :=
  if n < 10 then [n] else digits (n / 10) ++ [n % 10]

/-- The number that a row of digits denotes, continuing from `n`. -/
def ofDigits (n : Nat) (ds : List Nat) : Nat :=
  ds.foldl (fun n d => n * 10 + d) n

theorem ofDigits_append (n : Nat) (ds es : List Nat) :
    ofDigits n (ds ++ es) = ofDigits (ofDigits n ds) es := by
  simp [ofDigits]

theorem ofDigits_digits (n : Nat) : ofDigits 0 (digits n) = n := by
  induction n using Nat.strongRecOn with
  | _ n ih =>
    rw [digits]
    split
    · simp [ofDigits]
    · rw [ofDigits_append, ih (n / 10) (by omega)]
      simp only [ofDigits, List.foldl_cons, List.foldl_nil]
      omega

theorem lt_ten_of_mem_digits {n d : Nat} (h : d ∈ digits n) : d < 10 := by
  induction n using Nat.strongRecOn with
  | _ n ih =>
    rw [digits] at h
    split at h
    · simp_all
    · rcases List.mem_append.mp h with h | h
      · exact ih (n / 10) (by omega) h
      · simp only [List.mem_singleton] at h
        omega

theorem digits_ne_nil (n : Nat) : digits n ≠ [] := by
  rw [digits]
  split <;> simp

/-- The character of a digit. -/
def digitChar (d : Nat) : Char := Char.ofNat (48 + d)

/-- The decimal text of a natural number. -/
def ofNat (n : Nat) : String := String.ofList ((digits n).map digitChar)

/-- The decimal text of an integer: a minus sign stands before the digits of a negative one. -/
def ofInt (z : Int) : String := if z < 0 then "-" ++ ofNat z.natAbs else ofNat z.natAbs

end Linearizability.Decimal
