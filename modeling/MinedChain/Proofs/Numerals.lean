import MinedChain.Bytes
import Mathlib.Algebra.Group.Nat.Defs
import Mathlib.Data.List.Induction

/-!
# Octet strings as numerals

Among octet strings of one length, each denotes a number of its own below the bound of that length. So
eight octets are always the numeral of a word, and writing a word undoes reading it.
-/

namespace MinedChain.Bytes

theorem toNat_concat (bs : Bytes) (b : UInt8) :
    toNat (bs ++ [b]) = toNat bs * 256 + b.toNat := by
  simp [toNat]

theorem toNat_cons (b : UInt8) (bs : Bytes) :
    toNat (b :: bs) = b.toNat * 256 ^ bs.length + toNat bs := by
  induction bs using List.reverseRecOn with
  | nil => simp [toNat]
  | append_singleton bs c ih =>
    rw [← List.cons_append, toNat_concat, toNat_concat, ih, List.length_append, List.length_singleton,
      Nat.pow_succ, ← Nat.mul_assoc]
    omega

/-- A string denotes a number below the bound of its length. -/
theorem toNat_lt (bs : Bytes) : toNat bs < 256 ^ bs.length := by
  induction bs using List.reverseRecOn with
  | nil => simp [toNat]
  | append_singleton bs b ih =>
    have hb := b.toNat_lt
    rw [toNat_concat, List.length_append, List.length_singleton, Nat.pow_succ]
    omega

/-- Strings of one length that denote one number are equal. -/
theorem eq_of_toNat_eq {bs cs : Bytes} (hlength : bs.length = cs.length)
    (h : toNat bs = toNat cs) : bs = cs := by
  induction bs using List.reverseRecOn generalizing cs with
  | nil => exact (List.eq_nil_of_length_eq_zero hlength.symm).symm
  | append_singleton bs b ih =>
    cases cs using List.reverseRecOn with
    | nil => simp at hlength
    | append_singleton cs c =>
      have hb := b.toNat_lt
      have hc := c.toNat_lt
      rw [toNat_concat, toNat_concat] at h
      -- the last digit is the remainder, the others make the quotient
      have hlast : b = c := by
        rw [← UInt8.toNat_inj]
        omega
      have hfront : bs = cs := by
        apply ih
        · simpa using hlength
        · omega
      rw [hfront, hlast]

/-- Writing the number that eight octets denote gives these octets. -/
theorem ofWord_ofNat_toNat {bs : Bytes} (h : bs.length = 8) :
    ofWord (UInt64.ofNat (toNat bs)) = bs := by
  have hlt : toNat bs < 2 ^ 64 := by
    have hbound := toNat_lt bs
    rw [h] at hbound
    exact hbound
  apply eq_of_toNat_eq
  · rw [length_ofWord, h]
  · rw [toNat_ofWord, UInt64.toNat_ofNat_of_lt' hlt]

/-- A string of at least eight octets begins with a word. -/
theorem exists_eq_ofWord_append {bs : Bytes} (h : 8 ≤ bs.length) :
    ∃ w, bs = ofWord w ++ bs.drop 8 := by
  have hlength : (bs.take 8).length = 8 := List.length_take_of_le h
  refine ⟨UInt64.ofNat (toNat (bs.take 8)), ?_⟩
  rw [ofWord_ofNat_toNat hlength, List.take_append_drop]

end MinedChain.Bytes
