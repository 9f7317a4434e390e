import MinedChain.Proofs.SearchBound

/-!
# The greatest nonce

The range of a search never includes the greatest nonce, while the sequential search comes to it unless the
ceiling stops it before. On a block whose digest is up to date this is all that tells the two apart. From
nonce zero the ceiling always comes first, also where it only stands for a missing one. So a new block is
mined by both searches alike, and neither of them tries the greatest nonce.
-/

namespace MinedChain

/-- From a digest that is up to date, a search tests digests of the contents only. -/
theorem UnsealedBlock.testedDigest_of_digest_eq {u : UnsealedBlock} {hasher : Hasher}
    (h : u.digest = u.toContents.digestWith hasher u.nonce) (nonce : UInt64) :
    u.testedDigest hasher nonce = u.toContents.digestWith hasher nonce := by
  unfold testedDigest
  split
  next heq => rw [heq, h]
  next => rfl

namespace Work

variable {work : Work} {hasher : Hasher} {u : UnsealedBlock}

/-! ## Where the searches agree -/

/-- With a digest that is up to date, the sequential search answers as one over a range that may end
behind the greatest nonce. -/
theorem isAnswer_mine_of_digest_eq (work : Work)
    (h : u.digest = u.toContents.digestWith hasher u.nonce) :
    IsAnswer (fun n => (u.toContents.digestWith hasher n).Meets work.difficulty)
      (u.toContents.sealedWith hasher) u.nonce (min (u.nonce.toNat + work.limit.toNat) (2 ^ 64))
      (work.mine hasher u).result := by
  have hstart := u.nonce.toNat_lt
  have hbound : u.nonce.toNat + work.reach u.nonce =
      min (u.nonce.toNat + work.limit.toNat) (2 ^ 64) := by
    unfold reach
    omega
  have hanswer := work.isAnswer_mine hasher u
  simp only [UnsealedBlock.atNonce, UnsealedBlock.testedDigest_of_digest_eq h, hbound] at hanswer
  exact hanswer

/-- On a block whose digest is up to date, the two searches give the same answer, be it a block or the
number of attempts, exactly if the ceiling does not lie behind the greatest nonce or if a nonce before the
greatest meets the difficulty. -/
theorem searches_agree_iff (h : u.digest = u.toContents.digestWith hasher u.nonce) :
    (work.mine hasher u).result = (work.mineRange hasher u).result ↔
      u.nonce.toNat + work.limit.toNat ≤ maxWord.toNat ∨
        ∃ n, u.nonce ≤ n ∧ n < maxWord ∧
          (u.toContents.digestWith hasher n).Meets work.difficulty := by
  have hstart := u.nonce.toNat_lt
  have hmine := work.isAnswer_mine_of_digest_eq h
  have hrange := work.isAnswer_mineRange hasher u
  rw [toNat_rangeEnd] at hrange
  rw [eq_comm, hrange.eq_iff hmine (by omega) (by omega), toNat_maxWord]
  by_cases hceiling : u.nonce.toNat + work.limit.toNat ≤ 2 ^ 64 - 1
  · have hbounds : min (u.nonce.toNat + work.limit.toNat) (2 ^ 64 - 1) =
        min (u.nonce.toNat + work.limit.toNat) (2 ^ 64) := by omega
    exact ⟨fun _ => .inl hceiling, fun _ => .inl hbounds⟩
  · -- the bounds differ by one, and below both lie the nonces before the greatest
    have hbound : min (u.nonce.toNat + work.limit.toNat) (2 ^ 64 - 1) = maxWord.toNat := by
      rw [toNat_maxWord]
      omega
    have hbound' : maxWord.toNat ≠ min (u.nonce.toNat + work.limit.toNat) (2 ^ 64) := by
      rw [toNat_maxWord]
      omega
    rw [hbound, or_iff_right hbound', or_iff_right hceiling]
    exact Iff.rfl

/-- At the greatest nonce, where any digest will do, the sequential search seals the block and the search
over a range has nothing to try. -/
theorem searches_part_at_greatest_nonce :
    let work : Work := ⟨0, none, by decide⟩
    let hasher := Hasher.constant .zero
    let u : UnsealedBlock := ⟨⟨1, 0, [], .zero⟩, maxWord, .zero⟩
    u.digest = u.toContents.digestWith hasher u.nonce ∧
      (work.mine hasher u).result ≠ (work.mineRange hasher u).result := by
  intro work hasher u
  have hdigest : u.digest = u.toContents.digestWith hasher u.nonce := rfl
  refine ⟨hdigest, fun heq => ?_⟩
  rcases (searches_agree_iff hdigest).mp heq with hceiling | ⟨n, hn, hlt, -⟩
  · exact absurd hceiling (by decide)
  · exact UInt64.not_le.mpr hlt hn

/-! ## Searches without a ceiling -/

/-- Without a ceiling, both searches mine a new block alike. They give up exactly if no nonce before the
greatest meets the difficulty, and then have made one attempt less than there are nonces. The greatest
nonce is not tried: they give up although some nonce meets the difficulty exactly if the greatest does and
no other. -/
theorem unlimited_searches_leave_out_greatest_nonce (work : Work) (hasher : Hasher) (c : Contents) :
    let unlimited : Work := { work with maxAttempts := none }
    let u := UnsealedBlock.ofContents c hasher
    (unlimited.mineRange hasher u).result = (unlimited.mine hasher u).result ∧
    (∀ attempts, (unlimited.mine hasher u).result = .error (.exhausted attempts) ↔
      attempts = maxWord ∧ ∀ n < maxWord, ¬ (c.digestWith hasher n).Meets work.difficulty) ∧
    ((∃ attempts, (unlimited.mine hasher u).result = .error (.exhausted attempts)) ∧
        (∃ n, (c.digestWith hasher n).Meets work.difficulty) ↔
      (c.digestWith hasher maxWord).Meets work.difficulty ∧
        ∀ n < maxWord, ¬ (c.digestWith hasher n).Meets work.difficulty) := by
  intro unlimited u
  have hlimit : unlimited.limit = maxWord := rfl
  have hgivesUp : ∀ attempts, (unlimited.mine hasher u).result = .error (.exhausted attempts) ↔
      attempts = maxWord ∧ ∀ n < maxWord, ¬ (c.digestWith hasher n).Meets work.difficulty := by
    intro attempts
    rw [unlimited.result_mine_ofContents, Contents.mined_eq_error_iff, hlimit,
      MiningError.exhausted.injEq]
  refine ⟨?_, hgivesUp, ?_⟩
  · rw [unlimited.result_mine_ofContents, unlimited.result_mineRange_ofContents]
  · simp only [hgivesUp]
    constructor
    · rintro ⟨⟨_, -, hmiss⟩, n, hmeets⟩
      -- a nonce that is not below the greatest is the greatest
      have hle : maxWord ≤ n := UInt64.not_lt.mp fun hlt => hmiss n hlt hmeets
      have hlast : n = maxWord := UInt64.le_antisymm (le_maxWord n) hle
      rw [hlast] at hmeets
      exact ⟨hmeets, hmiss⟩
    · rintro ⟨hmeets, hmiss⟩
      exact ⟨⟨maxWord, rfl, hmiss⟩, maxWord, hmeets⟩

/-- Both searches give up on a new block that the greatest nonce would seal. -/
theorem greatest_nonce_not_tried :
    let work : Work := ⟨8, none, by decide⟩
    let hasher : Hasher := .onSuffix maxWord .zero ⟨List.replicate digestSize 255, rfl⟩
    let u := UnsealedBlock.ofContents ⟨1, 0, [], .zero⟩ hasher
    (work.mine hasher u).result = .error (.exhausted maxWord) ∧
      (work.mineRange hasher u).result = .error (.exhausted maxWord) ∧
      (u.toContents.digestWith hasher maxWord).Meets work.difficulty := by
  intro work hasher u
  have hmined : u.toContents.mined work hasher = .error (.exhausted maxWord) := by
    refine Contents.mined_eq_error_iff.mpr ⟨rfl, ?_⟩
    intro n hn
    have hne : n ≠ maxWord := UInt64.ne_of_lt hn
    rw [Contents.digestWith_onSuffix, if_neg hne]
    decide
  refine ⟨(work.result_mine_ofContents hasher _).trans hmined,
    (work.result_mineRange_ofContents hasher _).trans hmined, ?_⟩
  rw [Contents.digestWith_onSuffix, if_pos rfl]
  decide

end Work

end MinedChain
