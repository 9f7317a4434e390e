import MinedChain.Proofs.Attempts
import MinedChain.Proofs.Encoding
import Mathlib.Data.Nat.Find

/-!
# What a sequential search finds

A search makes attempts until the ceiling stops it or the nonces end, and its answer is the first
attempt that hits. In nonces, that is the lowest one in reach whose tested digest meets the difficulty.
At the stored nonce the tested digest is the stored one, so the answer is told for blocks with digests
out of date as well.
-/

namespace MinedChain

namespace Work

/-- The attempts that a search from a nonce may make: as many as the ceiling allows, and none behind
the greatest nonce. -/
def reach (work : Work) (start : UInt64) : Nat := min work.limit.toNat (2 ^ 64 - start.toNat)

/-- The nonce is tested by a search from `start`, unless a hit ends the search before. -/
def Reaches (work : Work) (start nonce : UInt64) : Prop :=
  start ≤ nonce ∧ nonce.toNat < start.toNat + work.reach start

instance (work : Work) (start nonce : UInt64) : Decidable (work.Reaches start nonce) :=
  inferInstanceAs (Decidable (_ ∧ _))

variable {work : Work} {start : UInt64} {k : Nat}

theorem reach_lt : work.reach start < 2 ^ 64 := by
  have hlimit := work.limit.toNat_lt
  unfold reach
  omega

/-- The nonces in reach do not wrap. -/
theorem toNat_add_of_lt_reach (h : k < work.reach start) :
    (start + UInt64.ofNat k).toNat = start.toNat + k := by
  unfold reach at h
  apply toNat_add_ofNat
  omega

theorem reaches_add_of_lt_reach (h : k < work.reach start) :
    work.Reaches start (start + UInt64.ofNat k) := by
  have hnonce := toNat_add_of_lt_reach h
  unfold Reaches
  rw [UInt64.le_iff_toNat_le, hnonce]
  omega

theorem Reaches.toNat_sub_lt_reach {nonce : UInt64} (h : work.Reaches start nonce) :
    nonce.toNat - start.toNat < work.reach start := by
  obtain ⟨hle, hlt⟩ := h
  have hle' : start.toNat ≤ nonce.toNat := hle
  omega

/-- The stored nonce is tested unless no attempt is allowed. -/
theorem reaches_self_iff : work.Reaches start start ↔ work.limit ≠ 0 := by
  have hstart := start.toNat_lt
  have hzero : work.limit = 0 ↔ work.limit.toNat = 0 := UInt64.toNat_inj.symm
  unfold Reaches reach
  rw [Ne, hzero, and_iff_right (UInt64.le_refl start)]
  omega

/-- From nonce zero the ceiling comes before the last nonce. -/
theorem reach_zero (work : Work) : work.reach 0 = work.limit.toNat := by
  have hlimit := work.limit.toNat_lt
  unfold reach
  rw [UInt64.toNat_zero]
  omega

theorem reaches_zero_iff {nonce : UInt64} : work.Reaches 0 nonce ↔ nonce < work.limit := by
  unfold Reaches
  rw [reach_zero, UInt64.toNat_zero, Nat.zero_add]
  exact and_iff_right UInt64.zero_le

end Work

/-! ## In attempts -/

namespace Search

variable {work : Work} {hasher : Hasher} {u : UnsealedBlock}

/-- A search without a hit in reach makes all the attempts that it may make. It says that it gives up if
the ceiling ends it, and not if the nonces do. -/
theorem mine_of_no_hit (hmiss : ∀ k < work.reach u.nonce, ¬ Hits work hasher u k) :
    work.mine hasher u =
      ⟨.error (.exhausted (UInt64.ofNat (work.reach u.nonce))),
        warningsOfMisses work u.index (work.reach u.nonce) ++
          if u.nonce.toNat + work.limit.toNat < 2 ^ 64 then [.gaveUp u.index work.limit] else []⟩ := by
  have hstart := u.nonce.toNat_lt
  by_cases hceiling : u.nonce.toNat + work.limit.toNat < 2 ^ 64
  · -- the ceiling comes before the last nonce
    have hreach : work.reach u.nonce = work.limit.toNat := by
      unfold Work.reach
      omega
    rw [hreach] at hmiss ⊢
    rw [mine_of_limit hceiling hmiss, if_pos hceiling, UInt64.ofNat_toNat]
  · -- the last nonce is tested, and there is none to go on with
    have hlimit := work.limit.toNat_lt
    have hreach : work.reach u.nonce = 2 ^ 64 - u.nonce.toNat - 1 + 1 := by
      unfold Work.reach
      omega
    rw [hreach] at hmiss ⊢
    rw [mine_of_last (by omega) (by omega) hmiss, if_neg hceiling, List.append_nil]

/-- What a search can come to: the first attempt in reach that hits, or none. -/
theorem mine_cases (work : Work) (hasher : Hasher) (u : UnsealedBlock) :
    (∃ k < work.reach u.nonce, Hits work hasher u k ∧ (∀ j < k, ¬ Hits work hasher u j) ∧
      (work.mine hasher u).result = .ok (u.atNonce hasher (u.nonce + UInt64.ofNat k)).sealed) ∨
    ((∀ k < work.reach u.nonce, ¬ Hits work hasher u k) ∧
      (work.mine hasher u).result = .error (.exhausted (UInt64.ofNat (work.reach u.nonce)))) := by
  classical
  by_cases hex : ∃ k, k < work.reach u.nonce ∧ Hits work hasher u k
  · left
    obtain ⟨k, ⟨hk, hhit⟩, hfirst⟩ : ∃ k, (k < work.reach u.nonce ∧ Hits work hasher u k) ∧
        ∀ j < k, ¬ (j < work.reach u.nonce ∧ Hits work hasher u j) :=
      ⟨Nat.find hex, Nat.find_spec hex, fun j hj => Nat.find_min hex hj⟩
    have hmiss : ∀ j < k, ¬ Hits work hasher u j := by
      intro j hj hhit'
      exact hfirst j hj ⟨Nat.lt_trans hj hk, hhit'⟩
    refine ⟨k, hk, hhit, hmiss, ?_⟩
    unfold Work.reach at hk
    rw [mine_of_hit (by omega) (by omega) hmiss hhit]
  · right
    have hmiss : ∀ k < work.reach u.nonce, ¬ Hits work hasher u k := fun k hk hhit =>
      hex ⟨k, hk, hhit⟩
    exact ⟨hmiss, congrArg Traced.result (mine_of_no_hit hmiss)⟩

/-- The attempt in which a nonce is tested hits exactly if its tested digest does. -/
theorem hits_toNat_sub_iff {nonce : UInt64} (h : u.nonce ≤ nonce) :
    Hits work hasher u (nonce.toNat - u.nonce.toNat) ↔
      (u.testedDigest hasher nonce).Meets work.difficulty := by
  rw [Hits, add_ofNat_toNat_sub h]

end Search

/-! ## In nonces -/

namespace Work

/-- What a search can come to: the lowest nonce in reach that hits, or none. -/
theorem result_mine_cases (work : Work) (hasher : Hasher) (u : UnsealedBlock) :
    (∃ n, work.Reaches u.nonce n ∧ (u.testedDigest hasher n).Meets work.difficulty ∧
      (∀ m, u.nonce ≤ m → m < n → ¬ (u.testedDigest hasher m).Meets work.difficulty) ∧
      (work.mine hasher u).result = .ok (u.atNonce hasher n).sealed) ∨
    ((∀ n, work.Reaches u.nonce n → ¬ (u.testedDigest hasher n).Meets work.difficulty) ∧
      (work.mine hasher u).result = .error (.exhausted (UInt64.ofNat (work.reach u.nonce)))) := by
  rcases Search.mine_cases work hasher u with ⟨k, hk, hhit, hmiss, hresult⟩ | ⟨hmiss, hresult⟩
  · left
    refine ⟨u.nonce + UInt64.ofNat k, reaches_add_of_lt_reach hk, hhit, ?_, hresult⟩
    intro m hm hmk
    rw [← Search.hits_toNat_sub_iff hm]
    rw [UInt64.lt_iff_toNat_lt, toNat_add_of_lt_reach hk] at hmk
    rw [UInt64.le_iff_toNat_le] at hm
    exact hmiss _ (by omega)
  · right
    refine ⟨?_, hresult⟩
    intro n hn
    rw [← Search.hits_toNat_sub_iff hn.1]
    exact hmiss _ hn.toNat_sub_lt_reach

/-- A search answers with the lowest nonce in reach whose tested digest has as many leading zero bits
as the difficulty asks for; the block holds that digest and is otherwise unchanged. If there is none,
the search has made all the attempts that the ceiling and the nonces allow, and says how many. -/
theorem mine_takes_lowest_in_reach (work : Work) (hasher : Hasher) (u : UnsealedBlock) :
    ((∃ n, work.Reaches u.nonce n ∧
        work.difficulty.toNat ≤ (u.testedDigest hasher n).leadingZeroBits) →
      ∃ n, work.Reaches u.nonce n ∧
        work.difficulty.toNat ≤ (u.testedDigest hasher n).leadingZeroBits ∧
        (∀ m, u.nonce ≤ m → m < n →
          (u.testedDigest hasher m).leadingZeroBits < work.difficulty.toNat) ∧
        (work.mine hasher u).result =
          .ok { u.toContents with nonce := n, digest := u.testedDigest hasher n }) ∧
    ((∀ n, work.Reaches u.nonce n →
        (u.testedDigest hasher n).leadingZeroBits < work.difficulty.toNat) →
      ∃ attempts, attempts.toNat = work.reach u.nonce ∧
        (work.mine hasher u).result = .error (.exhausted attempts)) := by
  simp only [← Nat.not_le, ← work.meets_iff]
  rcases work.result_mine_cases hasher u with ⟨n, hn, hmeets, hlow, hresult⟩ | ⟨hnone, hresult⟩
  · constructor
    · intro _
      exact ⟨n, hn, hmeets, hlow, hresult⟩
    · intro hnone
      exact absurd hmeets (hnone n hn)
  · constructor
    · rintro ⟨n, hn, hmeets⟩
      exact absurd hmeets (hnone n hn)
    · intro _
      exact ⟨_, UInt64.toNat_ofNat_of_lt' reach_lt, hresult⟩

/-- A search from the greatest nonce but one, at an outdated digest, finds the greatest nonce and seals
the block with the digest that belongs to it. -/
theorem greatest_nonce_found :
    let work : Work := ⟨8, none, by decide⟩
    let hit := Digest.zero
    let miss : Digest := ⟨List.replicate digestSize 255, rfl⟩
    let contents : Contents := ⟨1, 5, [], .zero⟩
    let u : UnsealedBlock := { contents with nonce := maxWord - 1, digest := miss }
    (work.mine (.onSuffix maxWord hit miss) u).result =
      .ok { contents with nonce := maxWord, digest := hit } := by
  intro work hit miss contents u
  have hdigest : ∀ n, u.testedDigest (.onSuffix maxWord hit miss) n =
      if n = maxWord then hit else miss := by
    intro n
    unfold UnsealedBlock.testedDigest
    split
    next h =>
      rw [h]
      rfl
    next => exact Contents.digestWith_onSuffix _ _ _ _ _
  have hmeets : ∃ n, work.Reaches u.nonce n ∧
      work.difficulty.toNat ≤ (u.testedDigest (.onSuffix maxWord hit miss) n).leadingZeroBits := by
    refine ⟨maxWord, by decide, ?_⟩
    rw [hdigest, if_pos rfl]
    decide
  obtain ⟨n, -, hmeets, -, hresult⟩ :=
    (mine_takes_lowest_in_reach work (.onSuffix maxWord hit miss) u).1 hmeets
  have hnonce : n = maxWord := by
    by_contra hne
    rw [hdigest, if_neg hne] at hmeets
    exact absurd hmeets (by decide)
  rw [hresult, hdigest, if_pos hnonce, hnonce]

end Work

end MinedChain
