import MinedChain.Digest

/-!
# Hexadecimal text that is written and read

Octets are written by lower-case digits, two for each, and are read back from them. So a digest is known
from its sixty-four digits.
-/

namespace MinedChain

namespace Hex

/-- A decimal digit or one of the letters from `a` to `f`. -/
def IsLowerDigit (c : Char) : Prop := ('0' ≤ c ∧ c ≤ '9') ∨ ('a' ≤ c ∧ c ≤ 'f')

instance (c : Char) : Decidable (IsLowerDigit c) := inferInstanceAs (Decidable (_ ∨ _))

theorem value?_digit {n : Nat} (h : n < 16) : value? (digit n) = some n := by
  have hall : ∀ n < 16, value? (digit n) = some n := by decide
  exact hall n h

theorem isLowerDigit_digit {n : Nat} (h : n < 16) : IsLowerDigit (digit n) := by
  have hall : ∀ n < 16, IsLowerDigit (digit n) := by decide
  exact hall n h

theorem isLowerDigit_of_mem_encode {bs : Bytes} {c : Char} (h : c ∈ encode bs) : IsLowerDigit c := by
  obtain ⟨b, -, hc⟩ := List.mem_flatMap.mp h
  have hlt := b.toNat_lt
  simp only [List.mem_cons, List.not_mem_nil, or_false] at hc
  rcases hc with rfl | rfl
  · exact isLowerDigit_digit (by omega)
  · exact isLowerDigit_digit (by omega)

theorem decode?_encode (bs : Bytes) : decode? (encode bs) = some bs := by
  induction bs with
  | nil => rfl
  | cons b bs ih =>
    have hlt := b.toNat_lt
    have hsum : 16 * (b.toNat / 16) + b.toNat % 16 = b.toNat := Nat.div_add_mod _ _
    show decode? (digit (b.toNat / 16) :: digit (b.toNat % 16) :: encode bs) = _
    rw [decode?, value?_digit (by omega), value?_digit (by omega), ih]
    show some (UInt8.ofNat (16 * (b.toNat / 16) + b.toNat % 16) :: bs) = _
    rw [hsum, UInt8.ofNat_toNat]

end Hex

namespace Digest

/-- A digest is read back from its text. -/
theorem ofHex?_toHex (d : Digest) : ofHex? d.toHex = some d := by
  rw [ofHex?, toHex, String.toList_ofList, Hex.decode?_encode]
  exact dif_pos d.length_bytes

theorem length_toHex (d : Digest) : d.toHex.length = digestHexSize := by
  rw [toHex, String.length_ofList, Hex.length_encode, d.length_bytes]
  rfl

theorem toHex_zero : zero.toHex = String.ofList (List.replicate digestHexSize '0') := by
  rfl

end Digest

end MinedChain
