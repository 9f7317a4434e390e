/-!
# Decimal text

Numbers are written without sign, blank or leading zero. Reading takes a non-empty run of digits,
leading zeros included, and leaves the check of a width to its caller.
-/

namespace MinedChain.Decimal

/-- One of the ten digits. -/
def isDigit (c : Char) : Bool := '0' ≤ c && c ≤ '9'

/-- The digits of a number, the most significant first. -/
def encode (n : Nat) : List Char := Nat.toDigits 10 n

/-- The digits of a number as a text. -/
def text (n : Nat) : String := String.ofList (encode n)

/-- The number that one more digit makes. -/
def append (n : Nat) (digit : Char) : Nat := n * 10 + (digit.toNat - '0'.toNat)

theorem le_append (n : Nat) (digit : Char) : n ≤ append n digit := by
  unfold append
  omega

/-- The number that a run of digits denotes. -/
def value (digits : List Char) : Nat := digits.foldl append 0

/-- The number that a text denotes, if it is a non-empty run of digits. -/
def decode? (text : List Char) : Option Nat :=
  if text ≠ [] ∧ text.all isDigit then some (value text) else none

/-! ## Bounded reading

The number of a long run of digits is large, and only few numbers are small enough to matter. These
readers never hold a number beyond the bound, so that they take time in proportion to the run.
-/

/-- The number that a run of digits denotes, if it stays below the bound. -/
def valueBelow? (bound : Nat) (digits : List Char) : Option Nat :=
  digits.foldlM (fun n c => if append n c < bound then some (append n c) else none) 0

/-- The number that a text denotes, if it is a non-empty run of digits and the number is below the
bound. -/
def decodeBelow? (bound : Nat) (text : List Char) : Option Nat :=
  if text ≠ [] ∧ text.all isDigit then valueBelow? bound text else none

/-- The number that a run of digits denotes, or the ceiling if that is less. -/
def valueUpTo (ceiling : Nat) (digits : List Char) : Nat :=
  digits.foldl (fun n c => min (append n c) ceiling) 0

theorem le_foldl_append (digits : List Char) (n : Nat) : n ≤ digits.foldl append n := by
  induction digits generalizing n with
  | nil => exact Nat.le_refl n
  | cons c rest ih => exact Nat.le_trans (le_append n c) (ih _)

private theorem foldlM_below (bound : Nat) (digits : List Char) (n : Nat) (h : n < bound) :
    digits.foldlM (fun n c => if append n c < bound then some (append n c) else none) n
      = if digits.foldl append n < bound then some (digits.foldl append n) else none := by
  induction digits generalizing n with
  | nil => simp [h]
  | cons c rest ih =>
    rw [List.foldlM_cons, List.foldl_cons]
    by_cases hc : append n c < bound
    · simp [hc, ih _ hc]
    · -- the number only grows from here on, so it stays out of bounds
      have : ¬rest.foldl append (append n c) < bound := by
        have := le_foldl_append rest (append n c)
        omega
      simp [hc, this]

/-- Bounded reading gives the number exactly when it is below the bound. -/
theorem valueBelow?_eq (bound : Nat) (h : 0 < bound) (digits : List Char) :
    valueBelow? bound digits = if value digits < bound then some (value digits) else none :=
  foldlM_below bound digits 0 h

end MinedChain.Decimal
