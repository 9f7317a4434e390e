import MinedChain.Proofs.LowestInRange
import MinedChain.Proofs.SequentialSearch
import MinedChain.Rules

/-!
# Mining new contents

New contents are mined from nonce zero, and their first digest is up to date. There both searches try
all nonces below the ceiling and no other, so they give one answer, `Contents.mined`: the block of the
lowest nonce that meets the difficulty, or as many attempts as the ceiling allows.
-/

namespace MinedChain

namespace Contents

/-- The block that the contents make under a nonce. -/
def sealedWith (c : Contents) (hasher : Hasher) (nonce : UInt64) : Block :=
  { c with nonce, digest := c.digestWith hasher nonce }

/-- The lowest nonce below the ceiling under which the contents meet the difficulty. -/
def lowestNonce? (c : Contents) (work : Work) (hasher : Hasher) : Option UInt64 :=
  firstInRange (fun nonce => (c.digestWith hasher nonce).Meets work.difficulty) 0 work.limit

/-- What mining the contents gives. -/
def mined (c : Contents) (work : Work) (hasher : Hasher) : Except MiningError Block :=
  match c.lowestNonce? work hasher with
  | some nonce => .ok (c.sealedWith hasher nonce)
  | none => .error (.exhausted work.limit)

theorem lowestNonce?_eq_some_iff {c : Contents} {work : Work} {hasher : Hasher} {nonce : UInt64} :
    c.lowestNonce? work hasher = some nonce ↔
      nonce < work.limit ∧ (c.digestWith hasher nonce).Meets work.difficulty ∧
        ∀ n < nonce, ¬ (c.digestWith hasher n).Meets work.difficulty := by
  rw [lowestNonce?, firstInRange_eq_iff]
  simp only [IsLowestInRange, decide_eq_true_eq, decide_eq_false_iff_not]
  constructor
  · intro h
    obtain ⟨-, hlt, hmeets, hlow⟩ := h
    exact ⟨hlt, hmeets, fun n hn => hlow n UInt64.zero_le hn⟩
  · intro h
    obtain ⟨hlt, hmeets, hlow⟩ := h
    exact ⟨UInt64.zero_le, hlt, hmeets, fun n _ hn => hlow n hn⟩

theorem lowestNonce?_eq_none_iff {c : Contents} {work : Work} {hasher : Hasher} :
    c.lowestNonce? work hasher = none ↔
      ∀ n < work.limit, ¬ (c.digestWith hasher n).Meets work.difficulty := by
  rw [lowestNonce?, firstInRange_eq_iff]
  simp only [IsLowestInRange, decide_eq_false_iff_not]
  exact ⟨fun h n hn => h n UInt64.zero_le hn, fun h n _ hn => h n hn⟩

end Contents

/-- The nonce is the lowest under which the contents meet the difficulty, and below the ceiling. -/
structure Block.HasLowestNonce (b : Block) (work : Work) (hasher : Hasher) : Prop where
  meets : (b.toContents.digestWith hasher b.nonce).Meets work.difficulty
  lowest : ∀ n < b.nonce, ¬ (b.toContents.digestWith hasher n).Meets work.difficulty
  lt_limit : b.nonce < work.limit

/-- Under a hasher of the last word, only one nonce meets the difficulty. -/
theorem Block.hasLowestNonce_onSuffix {b : Block} {work : Work} {word : UInt64} {hit miss : Digest}
    (h : b.nonce = word) (hlt : word < work.limit) (hhit : hit.Meets work.difficulty)
    (hmiss : ¬ miss.Meets work.difficulty) : b.HasLowestNonce work (.onSuffix word hit miss) := by
  refine ⟨?_, ?_, ?_⟩
  · rw [Contents.digestWith_onSuffix, if_pos h]
    exact hhit
  · intro n hn
    have hne : n ≠ word := by
      rw [h] at hn
      exact UInt64.ne_of_lt hn
    rw [Contents.digestWith_onSuffix, if_neg hne]
    exact hmiss
  · rw [h]
    exact hlt

/-- A block is what mining the contents gives exactly if it holds them, its digest is up to date and
its nonce is the lowest. -/
theorem Contents.mined_eq_ok_iff {c : Contents} {work : Work} {hasher : Hasher} {b : Block} :
    c.mined work hasher = .ok b ↔
      b.toContents = c ∧ b.computeDigest hasher = b.digest ∧ b.HasLowestNonce work hasher := by
  constructor
  · intro h
    unfold mined at h
    split at h
    next nonce hlowest =>
      obtain ⟨hlt, hmeets, hlow⟩ := lowestNonce?_eq_some_iff.mp hlowest
      injection h with h
      rw [← h]
      exact ⟨rfl, rfl, hmeets, hlow, hlt⟩
    next => contradiction
  · intro h
    obtain ⟨rfl, hdigest, hmeets, hlow, hlt⟩ := h
    have hlowest : b.toContents.lowestNonce? work hasher = some b.nonce :=
      lowestNonce?_eq_some_iff.mpr ⟨hlt, hmeets, hlow⟩
    rw [mined, hlowest]
    show Except.ok (Block.mk b.toContents b.nonce (b.computeDigest hasher)) = _
    rw [hdigest]

/-- A block whose digest is right and meets the difficulty is mined from its contents, if no lower nonce
will do. -/
theorem Contents.mined_of_digest {b : Block} {work : Work} {hasher : Hasher}
    (hdigest : b.computeDigest hasher = b.digest) (hmeets : b.digest.Meets work.difficulty)
    (hlowest : ∀ n < b.nonce, ¬ (b.toContents.digestWith hasher n).Meets work.difficulty)
    (hlimit : b.nonce < work.limit) : b.toContents.mined work hasher = .ok b := by
  rw [← hdigest] at hmeets
  exact mined_eq_ok_iff.mpr ⟨rfl, hdigest, hmeets, hlowest, hlimit⟩

/-- Mining the contents fails exactly if no nonce below the ceiling meets the difficulty. -/
theorem Contents.mined_eq_error_iff {c : Contents} {work : Work} {hasher : Hasher} {e : MiningError} :
    c.mined work hasher = .error e ↔
      e = .exhausted work.limit ∧
        ∀ n < work.limit, ¬ (c.digestWith hasher n).Meets work.difficulty := by
  rw [← lowestNonce?_eq_none_iff, mined]
  cases c.lowestNonce? work hasher with
  | some nonce => simp
  | none => simp [eq_comm]

/-! ## The sequential search -/

theorem Work.result_mine_ofContents (work : Work) (hasher : Hasher) (c : Contents) :
    (work.mine hasher (.ofContents c hasher)).result = c.mined work hasher := by
  have hcases := work.result_mine_cases hasher (.ofContents c hasher)
  have hzero : (UnsealedBlock.ofContents c hasher).nonce = 0 := rfl
  simp only [UnsealedBlock.testedDigest_ofContents, hzero, reaches_zero_iff] at hcases
  rcases hcases with ⟨n, hlt, hmeets, hlow, hresult⟩ | ⟨hnone, hresult⟩
  · have hlowest : c.lowestNonce? work hasher = some n :=
      Contents.lowestNonce?_eq_some_iff.mpr ⟨hlt, hmeets, fun m hm => hlow m UInt64.zero_le hm⟩
    rw [hresult, Contents.mined, hlowest, UnsealedBlock.atNonce,
      UnsealedBlock.testedDigest_ofContents]
    rfl
  · have hnone' : c.lowestNonce? work hasher = none :=
      Contents.lowestNonce?_eq_none_iff.mpr hnone
    rw [hresult, Contents.mined, hnone', reach_zero, UInt64.ofNat_toNat]

/-! ## The search over a range -/

/-- From nonce zero the range ends at the ceiling. -/
theorem Work.rangeEnd_zero (work : Work) : work.rangeEnd 0 = work.limit := by
  unfold Work.rangeEnd Work.limit
  cases work.maxAttempts with
  | none => rfl
  | some n =>
    have hn : (0 : UInt64).toNat + n.toNat < UInt64.size := by
      rw [UInt64.toNat_zero, Nat.zero_add]
      exact n.toNat_lt
    show (if _ then 0 + n else maxWord) = n
    rw [if_pos hn, UInt64.zero_add]

theorem Work.result_mineRange_ofContents (work : Work) (hasher : Hasher) (c : Contents) :
    (work.mineRange hasher (.ofContents c hasher)).result = c.mined work hasher := by
  have hnonce : (UnsealedBlock.ofContents c hasher).nonce = 0 := rfl
  have hfirst : work.firstHit hasher (.ofContents c hasher) = c.lowestNonce? work hasher := by
    rw [Work.firstHit, hnonce, work.rangeEnd_zero]
    rfl
  rw [Work.mineRange, hfirst, Contents.mined]
  cases c.lowestNonce? work hasher with
  | some n => rfl
  | none =>
    have hattempts : work.rangeAttempts 0 none = work.limit := by
      rw [Work.rangeAttempts, work.rangeEnd_zero, UInt64.sub_zero]
    rw [hnonce, hattempts]

/-! ## Under rules -/

/-- Whichever search the settings choose, mining contents gives the same. -/
theorem Rules.result_mineContents (r : Rules) (c : Contents) :
    (r.mineContents c).result = c.mined r.work r.hasher := by
  unfold Rules.mineContents Rules.mine
  split
  · exact r.work.result_mineRange_ofContents r.hasher c
  · exact r.work.result_mine_ofContents r.hasher c

end MinedChain
