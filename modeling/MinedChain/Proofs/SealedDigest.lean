import MinedChain.Proofs.SequentialSearch
import MinedChain.Work.Range

/-!
# The digest that a sealed block holds

A sealed block should hold the digest of its own contents and nonce. The search over a range recomputes
the digest of what it seals. The sequential search does so behind its first attempt only: there it tests
the stored digest as it finds it, and seals it on a hit. When that goes wrong is said here exactly; a
block whose digest is up to date is sealed as it should be by both.
-/

namespace MinedChain

namespace UnsealedBlock

theorem recompute_eq_self_iff {u : UnsealedBlock} {hasher : Hasher} :
    u.recompute hasher = u ↔ u.toContents.digestWith hasher u.nonce = u.digest := by
  unfold recompute
  constructor
  · intro h
    exact congrArg digest h
  · intro h
    rw [h]

/-- What is sealed at a nonce holds its own digest, but for the stored nonce with a digest that is out
of date. -/
theorem computeDigest_sealed_atNonce_iff {u : UnsealedBlock} {hasher : Hasher} {nonce : UInt64} :
    (u.atNonce hasher nonce).sealed.computeDigest hasher = (u.atNonce hasher nonce).sealed.digest ↔
      nonce ≠ u.nonce ∨ u.recompute hasher = u := by
  show u.toContents.digestWith hasher nonce = u.testedDigest hasher nonce ↔ _
  rw [recompute_eq_self_iff, testedDigest]
  by_cases h : nonce = u.nonce
  · simp [h]
  · simp [h]

end UnsealedBlock

namespace Work

/-- The search over a range seals the digest that it computed last. -/
theorem computeDigest_of_mineRange {work : Work} {hasher : Hasher} {u : UnsealedBlock} {b : Block}
    (h : (work.mineRange hasher u).result = .ok b) : b.computeDigest hasher = b.digest := by
  unfold mineRange at h
  cases hhit : work.firstHit hasher u with
  | none =>
    rw [hhit] at h
    exact nomatch h
  | some nonce =>
    rw [hhit] at h
    injection h with h
    rw [← h]
    rfl

/-- The sequential search seals a digest that is not the block's own exactly if the first attempt is
allowed, hits, and tests a digest that is out of date. -/
theorem mine_seals_outdated_iff {work : Work} {hasher : Hasher} {u : UnsealedBlock} :
    (∃ b, (work.mine hasher u).result = .ok b ∧ b.computeDigest hasher ≠ b.digest) ↔
      work.limit ≠ 0 ∧ u.digest.Meets work.difficulty ∧ u.recompute hasher ≠ u := by
  have hfirst : u.testedDigest hasher u.nonce = u.digest := if_pos rfl
  rcases work.result_mine_cases hasher u with ⟨n, hn, hmeets, hlow, hmined⟩ | ⟨hnone, hmined⟩
  · constructor
    · rintro ⟨b, hresult, houtdated⟩
      obtain rfl : (u.atNonce hasher n).sealed = b := by injection hmined.symm.trans hresult
      rw [Ne, UnsealedBlock.computeDigest_sealed_atNonce_iff, not_or, not_not] at houtdated
      obtain ⟨rfl, houtdated⟩ := houtdated
      rw [hfirst] at hmeets
      exact ⟨reaches_self_iff.mp hn, hmeets, houtdated⟩
    · rintro ⟨-, hmeets', houtdated⟩
      -- the stored nonce is the lowest of all that are tried, and it hits
      have hnonce : n = u.nonce := by
        have hle : ¬ u.nonce < n := by
          intro hlt
          have hmiss := hlow u.nonce (UInt64.le_refl _) hlt
          rw [hfirst] at hmiss
          exact hmiss hmeets'
        exact UInt64.le_antisymm (UInt64.not_lt.mp hle) hn.1
      refine ⟨_, hmined, ?_⟩
      rw [Ne, UnsealedBlock.computeDigest_sealed_atNonce_iff, not_or, not_not]
      exact ⟨hnonce, houtdated⟩
  · constructor
    · rintro ⟨b, hresult, -⟩
      exact nomatch hmined.symm.trans hresult
    · rintro ⟨hlimit, hmeets, -⟩
      have hmiss := hnone u.nonce (reaches_self_iff.mpr hlimit)
      rw [hfirst] at hmiss
      exact absurd hmeets hmiss

/-- Every block that a search seals holds the digest of its own contents and nonce, but for the case
that the sequential search hits at its first attempt, at a stored digest that is out of date. So a
block that recomputing its digest does not change is sealed as it should be by both searches. -/
theorem sealed_digest_is_own_unless_outdated (work : Work) (hasher : Hasher) (u : UnsealedBlock) :
    (∀ b, (work.mineRange hasher u).result = .ok b → b.computeDigest hasher = b.digest) ∧
    ((∀ b, (work.mine hasher u).result = .ok b → b.computeDigest hasher = b.digest) ↔
      (work.limit = 0 ∨ ¬ u.digest.Meets work.difficulty ∨ u.recompute hasher = u)) := by
  refine ⟨fun b h => computeDigest_of_mineRange h, ?_⟩
  rw [← not_iff_not]
  simpa only [not_forall, exists_prop, not_or, not_not] using mine_seals_outdated_iff

/-- A new block whose nonce is set afterwards is sealed with the digest of its first nonce. -/
theorem outdated_digest_sealed :
    let hasher : Hasher := .onSuffix 0 .zero ⟨List.replicate digestSize 255, rfl⟩
    let u := (UnsealedBlock.ofContents ⟨1, 0, [], .zero⟩ hasher).setNonce 5
    ∃ b, (Work.mine ⟨0, none, by decide⟩ hasher u).result = .ok b ∧
      b.computeDigest hasher ≠ b.digest := by
  intro hasher u
  exact mine_seals_outdated_iff.mpr ⟨by decide, by decide, by decide⟩

end Work

end MinedChain
