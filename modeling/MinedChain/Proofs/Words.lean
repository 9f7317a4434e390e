import MinedChain.Work
import Mathlib.Algebra.Group.Nat.Defs

/-!
# Words that do not wrap

Nonces, attempts and indices are words, and every sum of them that the searches and the chain compute
stays below `2 ^ 64`. The facts here turn such a sum into one of numbers.
-/

namespace MinedChain

theorem toNat_maxWord : maxWord.toNat = 2 ^ 64 - 1 := rfl

theorem le_maxWord (w : UInt64) : w ≤ maxWord := Nat.le_of_lt_succ w.toNat_lt

/-- Only the greatest word has no successor. -/
theorem toNat_add_one_lt_of_ne_maxWord {w : UInt64} (h : w ≠ maxWord) : w.toNat + 1 < 2 ^ 64 := by
  have hlt := w.toNat_lt
  have hne : w.toNat ≠ 2 ^ 64 - 1 := fun heq => h (UInt64.toNat_inj.mp heq)
  omega

theorem toNat_add_ofNat {w : UInt64} {k : Nat} (h : w.toNat + k < 2 ^ 64) :
    (w + UInt64.ofNat k).toNat = w.toNat + k := by
  have hk : k < UInt64.size := by
    show k < 2 ^ 64
    omega
  rw [UInt64.toNat_add, UInt64.toNat_ofNat_of_lt' hk, Nat.mod_eq_of_lt h]

theorem toNat_add_one {w : UInt64} (h : w.toNat + 1 < 2 ^ 64) : (w + 1).toNat = w.toNat + 1 :=
  toNat_add_ofNat h

theorem add_ofNat_toNat_sub {w u : UInt64} (h : w ≤ u) :
    w + UInt64.ofNat (u.toNat - w.toNat) = u := by
  have hle : w.toNat ≤ u.toNat := h
  have hlt := u.toNat_lt
  rw [← UInt64.toNat_inj, toNat_add_ofNat (by omega)]
  omega

/-- Different numbers below `2 ^ 64` are different words. -/
theorem eq_of_ofNat_eq {m n : Nat} (hm : m < 2 ^ 64) (hn : n < 2 ^ 64)
    (h : UInt64.ofNat m = UInt64.ofNat n) : m = n := by
  have hnat := congrArg UInt64.toNat h
  rw [UInt64.toNat_ofNat_of_lt' hm, UInt64.toNat_ofNat_of_lt' hn] at hnat
  exact hnat

theorem ofNat_lt_of_lt_toNat {w : UInt64} {k : Nat} (h : k < w.toNat) : UInt64.ofNat k < w :=
  (UInt64.ofNat_lt_iff (Nat.lt_trans h w.toNat_lt)).mpr h

/-- A word below another has a successor, and that is at most the other. -/
theorem toNat_add_one_of_lt {w u : UInt64} (h : w < u) : (w + 1).toNat = w.toNat + 1 := by
  have hlt : w.toNat < u.toNat := h
  have hu := u.toNat_lt
  exact toNat_add_one (by omega)

theorem toNat_max (w u : UInt64) : (max w u).toNat = max w.toNat u.toNat := by
  show (if w ≤ u then u else w).toNat = _
  rw [Nat.max_def]
  split
  next h => exact (if_pos h).symm
  next h => exact (if_neg h).symm

theorem max_comm_word (w u : UInt64) : max w u = max u w := by
  rw [← UInt64.toNat_inj, toNat_max, toNat_max, Nat.max_comm]

end MinedChain
