import MinedChain.Digest
import MinedChain.Proofs.Numerals
import Mathlib.Order.Bounds.Defs

/-!
# Leading zeros as a bound

A digest is a numeral, and its leading zero bits say how small the number is: there are at least `k` of
them exactly if the number lies below `2 ^ (256 - k)`. So a difficulty is a bound on the number that a
digest denotes. The zeros are counted octet by octet up to the first octet that is not zero. Each octet in
front of that one leaves the bound to the octets behind it, and that one settles it, whatever follows.
-/

namespace MinedChain.Digest

/-! ## One octet -/

/-- An octet begins with `k` zero bits exactly if it lies below the power of two that `k` bits leave. -/
theorem le_octetLeadingZeros_iff {b : UInt8} {k : Nat} (hk : k ≤ octetBits) :
    k ≤ octetLeadingZeros b ↔ b.toNat < 2 ^ (octetBits - k) := by
  unfold octetLeadingZeros
  by_cases hb : b = 0
  · rw [if_pos hb, hb]
    exact iff_of_true hk (Nat.two_pow_pos _)
  · have hne : b.toNat ≠ 0 := fun h => hb (UInt8.toNat_inj.mp h)
    have hlog : b.toNat.log2 < octetBits := (Nat.log2_lt hne).mpr b.toNat_lt
    rw [if_neg hb, ← Nat.log2_lt hne]
    omega

/-- Only the zero octet consists of zero bits. -/
theorem octetLeadingZeros_lt {b : UInt8} (hb : b ≠ 0) : octetLeadingZeros b < octetBits := by
  rw [octetLeadingZeros, if_neg hb]
  unfold octetBits
  omega

/-! ## Strings of octets -/

theorem countLeadingZeros_le (bs : Bytes) : countLeadingZeros bs ≤ octetBits * bs.length := by
  induction bs with
  | nil => exact Nat.le_refl 0
  | cons b bs ih =>
    rw [countLeadingZeros, List.length_cons, Nat.mul_succ]
    split
    next => omega
    next hb =>
      have hlt := octetLeadingZeros_lt hb
      omega

theorem pow_length (bs : Bytes) : 2 ^ (octetBits * bs.length) = 256 ^ bs.length :=
  Nat.pow_mul 2 octetBits bs.length

/-- A power of two that the octets behind the first cannot reach bounds the first octet alone. -/
theorem toNat_cons_lt_iff {b : UInt8} {bs : Bytes} {k : Nat} (hk : k ≤ octetBits) :
    Bytes.toNat (b :: bs) < 2 ^ (octetBits * bs.length + octetBits - k) ↔
      b.toNat < 2 ^ (octetBits - k) := by
  have hrest : Bytes.toNat bs < 256 ^ bs.length := Bytes.toNat_lt bs
  have hpos : 0 < 256 ^ bs.length := Nat.lt_of_le_of_lt (Nat.zero_le _) hrest
  rw [Nat.add_sub_assoc hk, Nat.pow_add, pow_length, Bytes.toNat_cons, Nat.mul_comm b.toNat,
    Nat.mul_comm (256 ^ bs.length) (2 ^ _), ← Nat.div_lt_iff_lt_mul hpos, Nat.mul_add_div hpos,
    Nat.div_eq_of_lt hrest, Nat.add_zero]

/-- An octet that is not zero counts for more than all octets behind it. -/
theorem two_pow_le_toNat_cons {b : UInt8} (hb : b ≠ 0) (bs : Bytes) :
    2 ^ (octetBits * bs.length) ≤ Bytes.toNat (b :: bs) := by
  have hpos : 0 < b.toNat := Nat.pos_of_ne_zero fun h => hb (UInt8.toNat_inj.mp h)
  rw [pow_length, Bytes.toNat_cons]
  exact Nat.le_trans (Nat.le_mul_of_pos_left _ hpos) (Nat.le_add_right _ _)

/-- A string of octets begins with `k` zero bits exactly if the number that it denotes lies below the
power of two that `k` bits leave. -/
theorem le_countLeadingZeros_iff {bs : Bytes} {k : Nat} (hk : k ≤ octetBits * bs.length) :
    k ≤ countLeadingZeros bs ↔ Bytes.toNat bs < 2 ^ (octetBits * bs.length - k) := by
  induction bs generalizing k with
  | nil =>
    obtain rfl : k = 0 := Nat.le_zero.mp hk
    exact iff_of_true (Nat.le_refl 0) Nat.one_pos
  | cons b bs ih =>
    rw [List.length_cons, Nat.mul_succ] at hk ⊢
    rw [countLeadingZeros]
    by_cases hfirst : k ≤ octetBits
    · -- the bits asked for are those of the first octet
      rw [toNat_cons_lt_iff hfirst, ← le_octetLeadingZeros_iff hfirst]
      split
      next hb =>
        rw [hb]
        exact iff_of_true (Nat.le_trans hfirst (Nat.le_add_right _ _)) hfirst
      next => exact Iff.rfl
    · obtain ⟨j, rfl⟩ := Nat.exists_eq_add_of_le (Nat.le_of_not_le hfirst)
      have hexponent : octetBits * bs.length + octetBits - (octetBits + j) =
          octetBits * bs.length - j := by omega
      rw [hexponent]
      split
      next hb =>
        have hsame : Bytes.toNat (b :: bs) = Bytes.toNat bs := by
          rw [Bytes.toNat_cons, hb, UInt8.toNat_zero, Nat.zero_mul, Nat.zero_add]
        rw [hsame, Nat.add_le_add_iff_left]
        exact ih (by omega)
      next hb =>
        have hlarge := two_pow_le_toNat_cons hb bs
        have hpow : 2 ^ (octetBits * bs.length - j) ≤ 2 ^ (octetBits * bs.length) :=
          Nat.pow_le_pow_right Nat.two_pos (Nat.sub_le _ _)
        have hfew := octetLeadingZeros_lt hb
        exact iff_of_false (by omega) (by omega)

/-! ## Digests -/

/-- A digest meets a difficulty exactly if the difficulty is not above its width and the number that it
denotes lies below the power of two that the difficulty leaves. Its leading zero bits are the greatest
difficulty that it meets. -/
theorem meets_iff_toNat_lt (d : Digest) :
    (∀ difficulty : UInt32,
      d.Meets difficulty ↔ difficulty.toNat ≤ 256 ∧ d.toNat < 2 ^ (256 - difficulty.toNat)) ∧
    IsGreatest {k : Nat | k ≤ 256 ∧ d.toNat < 2 ^ (256 - k)} d.leadingZeroBits := by
  have hwidth : octetBits * d.bytes.length = 256 := by
    rw [d.length_bytes]
    rfl
  have hbits {k : Nat} (hk : k ≤ 256) : k ≤ d.leadingZeroBits ↔ d.toNat < 2 ^ (256 - k) := by
    rw [← hwidth] at hk ⊢
    exact le_countLeadingZeros_iff hk
  have hle : d.leadingZeroBits ≤ 256 := hwidth ▸ countLeadingZeros_le d.bytes
  refine ⟨fun difficulty => and_congr_right hbits, ⟨hle, (hbits hle).mp (Nat.le_refl _)⟩, ?_⟩
  rintro k ⟨hk, hlt⟩
  exact (hbits hk).mpr hlt

end MinedChain.Digest
