import MinedChain.Proofs.Words
import MinedChain.Work.Range

/-!
# The lowest word in a range

What a search over a range of nonces is asked for, said without an order of trying: the lowest word of
the range that satisfies a predicate. There is at most one answer, so a search that tries the words in
another order, or several at a time, and answers as asked is `firstInRange`.
-/

namespace MinedChain

/-- The answer is the lowest word from `start` up to but not including `stop` that satisfies `p`, or
there is none and it says so. -/
def IsLowestInRange (p : UInt64 → Bool) (start stop : UInt64) : Option UInt64 → Prop
  | some n => start ≤ n ∧ n < stop ∧ p n = true ∧ ∀ m, start ≤ m → m < n → p m = false
  | none => ∀ m, start ≤ m → m < stop → p m = false

/-- An answer about the range behind a word that fails is one about the range from that word on. -/
theorem IsLowestInRange.of_tail {p : UInt64 → Bool} {start stop : UInt64} {answer : Option UInt64}
    (hlt : start < stop) (hmiss : p start = false)
    (h : IsLowestInRange p (start + 1) stop answer) : IsLowestInRange p start stop answer := by
  have hsucc := toNat_add_one_of_lt hlt
  have hmissUpTo : ∀ {bound : UInt64}, (∀ m, start + 1 ≤ m → m < bound → p m = false) →
      ∀ m, start ≤ m → m < bound → p m = false := by
    intro bound htail m hle hm
    by_cases heq : m = start
    · rw [heq]; exact hmiss
    · have hne : m.toNat ≠ start.toNat := fun h => heq (UInt64.toNat_inj.mp h)
      have hle' : start.toNat ≤ m.toNat := hle
      refine htail m ?_ hm
      rw [UInt64.le_iff_toNat_le, hsucc]
      omega
  cases answer with
  | none => exact hmissUpTo h
  | some n =>
    obtain ⟨hle, hn, hp, hlow⟩ := h
    refine ⟨?_, hn, hp, hmissUpTo hlow⟩
    rw [UInt64.le_iff_toNat_le] at hle ⊢
    omega

theorem isLowestInRange_firstInRange (p : UInt64 → Bool) (start stop : UInt64) :
    IsLowestInRange p start stop (firstInRange p start stop) := by
  fun_induction firstInRange p start stop with
  | case1 start hlt hp =>
    refine ⟨UInt64.le_refl _, hlt, hp, fun m hle hm => ?_⟩
    exact absurd hm (UInt64.not_lt.mpr hle)
  | case2 start hlt hp ih => exact ih.of_tail hlt (Bool.eq_false_iff.mpr hp)
  | case3 start hlt => exact fun m hle hm => absurd (UInt64.lt_of_le_of_lt hle hm) hlt

/-- There is at most one answer. -/
theorem IsLowestInRange.unique {p : UInt64 → Bool} {start stop : UInt64} {a b : Option UInt64}
    (ha : IsLowestInRange p start stop a) (hb : IsLowestInRange p start stop b) : a = b := by
  cases a with
  | none =>
    cases b with
    | none => rfl
    | some n =>
      obtain ⟨hle, hlt, hp, -⟩ := hb
      exact absurd hp (Bool.eq_false_iff.mp (ha n hle hlt))
  | some n =>
    obtain ⟨hle, hlt, hp, hlow⟩ := ha
    cases b with
    | none => exact absurd hp (Bool.eq_false_iff.mp (hb n hle hlt))
    | some m =>
      obtain ⟨hle', -, hp', hlow'⟩ := hb
      -- neither of two lowest words lies below the other
      have hnm : ¬ n < m := fun h => Bool.eq_false_iff.mp (hlow' n hle h) hp
      have hmn : ¬ m < n := fun h => Bool.eq_false_iff.mp (hlow m hle' h) hp'
      rw [UInt64.le_antisymm (UInt64.not_lt.mp hmn) (UInt64.not_lt.mp hnm)]

theorem firstInRange_eq_iff {p : UInt64 → Bool} {start stop : UInt64} {answer : Option UInt64} :
    firstInRange p start stop = answer ↔ IsLowestInRange p start stop answer := by
  constructor
  · intro h
    rw [← h]
    exact isLowestInRange_firstInRange p start stop
  · exact (isLowestInRange_firstInRange p start stop).unique

end MinedChain
