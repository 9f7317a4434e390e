import MinedChain.Proofs.Mining

/-!
# The bound of a search

Both searches answer in one way: with the block that is sealed at the lowest nonce that hits below a bound,
or else with the number of the nonces from the first one up to the bound. They differ in what they test at
the stored nonce, and in the bound, which for the search over a range does not lie behind the greatest
nonce. Answers below two bounds are the same exactly if the bounds are, or if there is a hit below both.
-/

namespace MinedChain

/-! ## Lowest hits -/

/-- The nonce hits, lies below the bound, and is the lowest from `start` on that hits. -/
structure IsLowestHit (hit : UInt64 → Prop) (start : UInt64) (bound : Nat) (nonce : UInt64) : Prop where
  start_le : start ≤ nonce
  lt_bound : nonce.toNat < bound
  hits : hit nonce
  lowest : ∀ m, start ≤ m → m < nonce → ¬ hit m

namespace IsLowestHit

variable {hit : UInt64 → Prop} {start nonce : UInt64} {bound : Nat}

theorem mono_bound {bound' : Nat} (h : IsLowestHit hit start bound nonce) (hle : bound ≤ bound') :
    IsLowestHit hit start bound' nonce :=
  ⟨h.start_le, Nat.lt_of_lt_of_le h.lt_bound hle, h.hits, h.lowest⟩

/-- There is a lowest hit at or below every hit. -/
theorem exists_le (hstart : start ≤ nonce) (hbound : nonce.toNat < bound) (hhit : hit nonce) :
    ∃ n ≤ nonce, IsLowestHit hit start bound n := by
  induction hk : nonce.toNat using Nat.strongRecOn generalizing nonce with
  | ind k ih =>
    -- a hit with none below it is the lowest, and any other gives way to one that is lower
    by_cases hlower : ∃ m, start ≤ m ∧ m < nonce ∧ hit m
    · obtain ⟨m, hm, hlt, hhit'⟩ := hlower
      have hlt' : m.toNat < nonce.toNat := hlt
      obtain ⟨n, hn, hlowest⟩ := ih m.toNat (by omega) hm (by omega) hhit' rfl
      exact ⟨n, UInt64.le_trans hn (UInt64.le_of_lt hlt), hlowest⟩
    · refine ⟨nonce, UInt64.le_refl _, hstart, hbound, hhit, ?_⟩
      intro m hm hlt hhit'
      exact hlower ⟨m, hm, hlt, hhit'⟩

theorem mono_hit {hit' : UInt64 → Prop} (h : IsLowestHit hit start bound nonce)
    (himp : ∀ m, hit m → hit' m) : ∃ n ≤ nonce, IsLowestHit hit' start bound n :=
  exists_le h.start_le h.lt_bound (himp nonce h.hits)

/-- There is one lowest hit at most, below whatever bounds. -/
theorem unique {nonce' : UInt64} {bound' : Nat} (h : IsLowestHit hit start bound nonce)
    (h' : IsLowestHit hit start bound' nonce') : nonce = nonce' := by
  have hle : ¬ nonce < nonce' := fun hlt => h'.lowest nonce h.start_le hlt h.hits
  have hge : ¬ nonce' < nonce := fun hlt => h.lowest nonce' h'.start_le hlt h'.hits
  exact UInt64.le_antisymm (UInt64.not_lt.mp hge) (UInt64.not_lt.mp hle)

end IsLowestHit

/-! ## Answers -/

/-- The answer of a search from `start`: the block that is sealed at the lowest hit, or the number of the
nonces below the bound if none of them hits. -/
def IsAnswer (hit : UInt64 → Prop) (sealedAt : UInt64 → Block) (start : UInt64) (bound : Nat) :
    Except MiningError Block → Prop
  | .ok b => ∃ n, IsLowestHit hit start bound n ∧ sealedAt n = b
  | .error (.exhausted attempts) =>
    attempts.toNat = bound - start.toNat ∧ ∀ n, start ≤ n → n.toNat < bound → ¬ hit n

namespace IsAnswer

variable {hit : UInt64 → Prop} {sealedAt : UInt64 → Block} {start : UInt64} {bound bound' : Nat}
  {answer answer' : Except MiningError Block} {b : Block}

/-- A block that is found below a bound is found below every higher one. -/
theorem mono_bound (h : IsAnswer hit sealedAt start bound (.ok b)) (hle : bound ≤ bound') :
    IsAnswer hit sealedAt start bound' (.ok b) := by
  obtain ⟨n, hn, hb⟩ := h
  exact ⟨n, hn.mono_bound hle, hb⟩

theorem unique (h : IsAnswer hit sealedAt start bound answer)
    (h' : IsAnswer hit sealedAt start bound answer') : answer = answer' := by
  match answer, answer' with
  | .ok b, .ok b' =>
    obtain ⟨n, hn, rfl⟩ := h
    obtain ⟨n', hn', rfl⟩ := h'
    rw [hn.unique hn']
  | .ok b, .error (.exhausted attempts) =>
    obtain ⟨n, hn, -⟩ := h
    exact absurd hn.hits (h'.2 n hn.start_le hn.lt_bound)
  | .error (.exhausted attempts), .ok b =>
    obtain ⟨n, hn, -⟩ := h'
    exact absurd hn.hits (h.2 n hn.start_le hn.lt_bound)
  | .error (.exhausted attempts), .error (.exhausted attempts') =>
    have hattempts : attempts.toNat = attempts'.toNat := h.1.trans h'.1.symm
    rw [UInt64.toNat_inj.mp hattempts]

theorem eq_ok_iff (h : IsAnswer hit sealedAt start bound answer) :
    answer = .ok b ↔ ∃ n, IsLowestHit hit start bound n ∧ sealedAt n = b := by
  constructor
  · rintro rfl
    exact h
  · rintro ⟨n, hn, hb⟩
    have hfound : IsAnswer hit sealedAt start bound (.ok b) := ⟨n, hn, hb⟩
    exact h.unique hfound

/-- The answer is a block exactly if there is a hit below the bound. -/
theorem exists_ok_iff (h : IsAnswer hit sealedAt start bound answer) :
    (∃ b, answer = .ok b) ↔ ∃ n, start ≤ n ∧ n.toNat < bound ∧ hit n := by
  match answer with
  | .ok b =>
    obtain ⟨n, hn, -⟩ := h
    exact ⟨fun _ => ⟨n, hn.start_le, hn.lt_bound, hn.hits⟩, fun _ => ⟨b, rfl⟩⟩
  | .error (.exhausted attempts) =>
    constructor
    · rintro ⟨b, hb⟩
      exact nomatch hb
    · rintro ⟨n, hn, hlt, hhit⟩
      exact absurd hhit (h.2 n hn hlt)

/-- Answers below two bounds are the same exactly if the bounds are, or if there is a hit below both. -/
theorem eq_iff (h : IsAnswer hit sealedAt start bound answer)
    (h' : IsAnswer hit sealedAt start bound' answer') (hstart : start.toNat ≤ bound)
    (hle : bound ≤ bound') :
    answer = answer' ↔ bound = bound' ∨ ∃ n, start ≤ n ∧ n.toNat < bound ∧ hit n := by
  rw [← h.exists_ok_iff]
  constructor
  · rintro rfl
    match answer with
    | .ok b => exact .inr ⟨b, rfl⟩
    | .error (.exhausted attempts) =>
      -- the number of attempts tells where the bound is
      have hattempts := h.1
      have hattempts' := h'.1
      left
      omega
  · rintro (rfl | ⟨b, rfl⟩)
    · exact h.unique h'
    · exact (h.mono_bound hle).unique h'

end IsAnswer

/-! ## The two searches -/

namespace Work

variable {work : Work} {hasher : Hasher} {u : UnsealedBlock} {b : Block}

/-- The range ends where the ceiling says, but never behind the greatest nonce. -/
theorem toNat_rangeEnd (work : Work) (start : UInt64) :
    (work.rangeEnd start).toNat = min (start.toNat + work.limit.toNat) (2 ^ 64 - 1) := by
  unfold rangeEnd limit
  cases work.maxAttempts with
  | none =>
    show maxWord.toNat = min (start.toNat + maxWord.toNat) (2 ^ 64 - 1)
    rw [toNat_maxWord]
    omega
  | some n =>
    show (if start.toNat + n.toNat < 2 ^ 64 then start + n else maxWord).toNat =
      min (start.toNat + n.toNat) (2 ^ 64 - 1)
    split
    next h =>
      rw [UInt64.toNat_add, Nat.mod_eq_of_lt h]
      omega
    next h =>
      rw [toNat_maxWord]
      omega

theorem le_rangeEnd (work : Work) (start : UInt64) : start ≤ work.rangeEnd start := by
  have hstart := start.toNat_lt
  rw [UInt64.le_iff_toNat_le, toNat_rangeEnd]
  omega

/-- A range without a hit is counted in full, and the difference does not wrap. -/
theorem toNat_rangeAttempts_none (work : Work) (start : UInt64) :
    (work.rangeAttempts start none).toNat = (work.rangeEnd start).toNat - start.toNat :=
  UInt64.toNat_sub_of_le _ _ (work.le_rangeEnd start)

/-- Up to a hit in the range the nonces are counted with the hit, and the count does not wrap. -/
theorem toNat_rangeAttempts_some {start hit : UInt64} (hle : start ≤ hit)
    (hlt : hit < work.rangeEnd start) :
    (work.rangeAttempts start (some hit)).toNat = hit.toNat - start.toNat + 1 := by
  have hdistance := UInt64.toNat_sub_of_le _ _ hle
  have hend := (work.rangeEnd start).toNat_lt
  rw [UInt64.lt_iff_toNat_lt] at hlt
  rw [rangeAttempts, toNat_add_one (by omega), hdistance]

/-- The sequential search tests the stored digest first, and may come to the greatest nonce. -/
theorem isAnswer_mine (work : Work) (hasher : Hasher) (u : UnsealedBlock) :
    IsAnswer (fun n => (u.testedDigest hasher n).Meets work.difficulty)
      (fun n => (u.atNonce hasher n).sealed) u.nonce (u.nonce.toNat + work.reach u.nonce)
      (work.mine hasher u).result := by
  rcases work.result_mine_cases hasher u with ⟨n, hn, hmeets, hlow, hresult⟩ | ⟨hnone, hresult⟩
  · rw [hresult]
    exact ⟨n, ⟨hn.1, hn.2, hmeets, hlow⟩, rfl⟩
  · rw [hresult]
    refine ⟨?_, fun n hn hlt => hnone n ⟨hn, hlt⟩⟩
    rw [UInt64.toNat_ofNat_of_lt' reach_lt, Nat.add_sub_cancel_left]

/-- The first hit of the search over a range is the lowest in the range. -/
theorem firstHit_eq_some_iff {n : UInt64} :
    work.firstHit hasher u = some n ↔
      IsLowestHit (fun m => (u.toContents.digestWith hasher m).Meets work.difficulty) u.nonce
        (work.rangeEnd u.nonce).toNat n := by
  rw [firstHit, firstInRange_eq_iff]
  simp only [IsLowestInRange, decide_eq_true_eq, decide_eq_false_iff_not]
  constructor
  · rintro ⟨hle, hlt, hhit, hlow⟩
    exact ⟨hle, hlt, hhit, hlow⟩
  · rintro ⟨hle, hlt, hhit, hlow⟩
    exact ⟨hle, hlt, hhit, hlow⟩

theorem firstHit_eq_none_iff :
    work.firstHit hasher u = none ↔
      ∀ m, u.nonce ≤ m → m.toNat < (work.rangeEnd u.nonce).toNat →
        ¬ (u.toContents.digestWith hasher m).Meets work.difficulty := by
  rw [firstHit, firstInRange_eq_iff]
  simp only [IsLowestInRange, decide_eq_false_iff_not]
  exact Iff.rfl

/-- The search over a range tests digests of the contents only, up to the end of the range. -/
theorem isAnswer_mineRange (work : Work) (hasher : Hasher) (u : UnsealedBlock) :
    IsAnswer (fun n => (u.toContents.digestWith hasher n).Meets work.difficulty)
      (u.toContents.sealedWith hasher) u.nonce (work.rangeEnd u.nonce).toNat
      (work.mineRange hasher u).result := by
  unfold mineRange
  cases hhit : work.firstHit hasher u with
  | none => exact ⟨work.toNat_rangeAttempts_none u.nonce, firstHit_eq_none_iff.mp hhit⟩
  | some n => exact ⟨n, firstHit_eq_some_iff.mp hhit, rfl⟩

/-- The sequential search succeeds with the lowest hit in reach, and only with that. -/
theorem result_mine_eq_ok_iff :
    (work.mine hasher u).result = .ok b ↔
      ∃ n, IsLowestHit (fun m => (u.testedDigest hasher m).Meets work.difficulty) u.nonce
          (u.nonce.toNat + work.reach u.nonce) n ∧
        (u.atNonce hasher n).sealed = b :=
  (work.isAnswer_mine hasher u).eq_ok_iff

/-- The search over a range succeeds with the lowest hit in the range, and only with that. -/
theorem result_mineRange_eq_ok_iff :
    (work.mineRange hasher u).result = .ok b ↔
      ∃ n, IsLowestHit (fun m => (u.toContents.digestWith hasher m).Meets work.difficulty) u.nonce
          (work.rangeEnd u.nonce).toNat n ∧
        u.toContents.sealedWith hasher n = b :=
  (work.isAnswer_mineRange hasher u).eq_ok_iff

end Work

end MinedChain
