import MinedChain.Text.Decimal

/-!
# Numbers as they are written

The digits that write a number are digits, there is at least one, none but zero begins with a zero, and
reading them gives the number back.
-/

namespace MinedChain.Decimal

theorem isDigit_of_mem_encode {n : Nat} {c : Char} (h : c ∈ encode n) : isDigit c = true :=
  Nat.isDigit_of_mem_toDigits (by decide) (by decide) h

theorem encode_ne_nil (n : Nat) : encode n ≠ [] := Nat.toDigits_ne_nil

theorem value_encode (n : Nat) : value (encode n) = n := by
  have hfold : value (encode n) = Nat.ofDigitChars 10 (encode n) 0 := by
    rw [Nat.ofDigitChars_eq_foldl]
    show (encode n).foldl append 0 = _
    congr
    funext m c
    rw [append, Nat.mul_comm]
  rw [hfold]
  exact Nat.ofDigitChars_ten_toDigits

theorem head?_encode_ne_zero {n : Nat} (h : n ≠ 0) : (encode n).head? ≠ some '0' := by
  induction n using Nat.strongRecOn with
  | ind n ih =>
    rw [encode, Nat.toDigits_eq_if (by decide)]
    split
    next =>
      intro heq
      injection heq with heq
      exact h (Nat.digitChar_eq_zero.mp heq)
    -- all digits but the last write the tenth part, which is not zero either
    next hlt =>
      obtain ⟨d, rest, hfront⟩ := List.exists_cons_of_ne_nil (encode_ne_nil (n / 10))
      have hd := ih (n / 10) (by omega) (by omega)
      rw [hfront] at hd
      rw [encode] at hfront
      rw [hfront]
      exact hd

/-- No zero stands before another digit. -/
theorem encode_ne_zero_cons (n : Nat) (d : Char) (rest : List Char) :
    encode n ≠ '0' :: d :: rest := by
  by_cases hn : n = 0
  · rw [hn]
    intro h
    exact nomatch h
  · intro h
    exact head?_encode_ne_zero hn (congrArg List.head? h)

/-- A number below the bound is read back. -/
theorem decodeBelow?_encode {n bound : Nat} (h : n < bound) :
    decodeBelow? bound (encode n) = some n := by
  have hdigits : encode n ≠ [] ∧ (encode n).all isDigit :=
    ⟨encode_ne_nil n, List.all_eq_true.mpr fun _ hc => isDigit_of_mem_encode hc⟩
  rw [decodeBelow?, if_pos hdigits, valueBelow?_eq bound (Nat.lt_of_le_of_lt (Nat.zero_le n) h),
    value_encode, if_pos h]

end MinedChain.Decimal
