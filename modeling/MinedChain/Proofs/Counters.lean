import MinedChain.Proofs.SearchBound

/-!
# Counters that do not wrap

The sequential search adds to its counter of attempts, and the search over a range takes differences of nonces,
without looking whether the words suffice. They do. The counter is the distance from the first nonce and never
goes beyond the ceiling, at whatever turn; and a range ends behind its start, with every hit in between. For
the same reason a search ends: each turn tests one digest at most, and there are as many as the ceiling and the
nonces allow.
-/

namespace MinedChain

namespace Search

variable {work : Work} {hasher : Hasher} {u : UnsealedBlock} {s t : Search} {events : List Event}
  {start : UInt64}

/-! ## Turns -/

/-- A search from the block comes to this state before some turn. -/
inductive Visits (work : Work) (hasher : Hasher) (u : UnsealedBlock) : Search → Prop
  | start : Visits work hasher u ⟨u, 0⟩
  | next {s t : Search} {events : List Event} (h : Visits work hasher u s)
      (hstep : s.step work hasher = .next t events) : Visits work hasher u t

/-- The attempts are the distance of the nonce from the first one, and no more than the ceiling. -/
structure Counts (work : Work) (start : UInt64) (s : Search) : Prop where
  distance : start.toNat + s.attempts.toNat = s.block.nonce.toNat
  le_limit : s.attempts ≤ work.limit

/-- Below the ceiling, one more attempt can be counted. -/
theorem toNat_attempts_add_one (hle : s.attempts ≤ work.limit) (hne : s.attempts ≠ work.limit) :
    (s.attempts + 1).toNat = s.attempts.toNat + 1 :=
  toNat_add_one_of_lt (UInt64.lt_of_le_of_ne hle hne)

/-- A turn that is not the last raises the counter by one, and not beyond the ceiling. -/
theorem attempts_of_step_eq_next (hle : s.attempts ≤ work.limit)
    (h : s.step work hasher = .next t events) :
    s.attempts ≠ work.limit ∧ t.attempts.toNat = s.attempts.toNat + 1 ∧ t.attempts ≤ work.limit := by
  obtain ⟨hne, -, rfl⟩ := of_step_eq_next h
  have hcount := toNat_attempts_add_one hle hne
  have hlt : s.attempts.toNat < work.limit.toNat := UInt64.lt_of_le_of_ne hle hne
  rw [UInt64.le_iff_toNat_le, hcount]
  exact ⟨hne, rfl, hlt⟩

theorem Counts.next (h : Counts work start s) (hstep : s.step work hasher = .next t events) :
    Counts work start t := by
  obtain ⟨-, hcount, hle⟩ := attempts_of_step_eq_next h.le_limit hstep
  refine ⟨?_, hle⟩
  rw [nonce_of_step_eq_next hstep, hcount, ← h.distance, Nat.add_assoc]

theorem Visits.counts (h : Visits work hasher u s) : Counts work u.nonce s := by
  induction h with
  | start => exact ⟨rfl, UInt64.zero_le⟩
  | next _ hstep ih => exact ih.next hstep

/-! ## Tests -/

/-- The digests that a turn tests: the stored one, unless the ceiling ends the search before that. -/
def tests (work : Work) (s : Search) : Nat := if s.attempts = work.limit then 0 else 1

/-- From a state the search stops with a result, after it has tested so many digests. -/
inductive StopsAfter (work : Work) (hasher : Hasher) :
    Search → Nat → Except MiningError Block → Prop
  | stop {s : Search} {result : Except MiningError Block} {events : List Event}
      (hstep : s.step work hasher = .stop result events) :
      StopsAfter work hasher s (s.tests work) result
  | next {s t : Search} {events : List Event} {k : Nat} {result : Except MiningError Block}
      (hstep : s.step work hasher = .next t events) (h : StopsAfter work hasher t k result) :
      StopsAfter work hasher s (s.tests work + k) result

/-- What a turn tests, the ceiling and the nonces still allow. -/
theorem tests_le (hle : s.attempts ≤ work.limit) :
    s.attempts.toNat + s.tests work ≤ work.limit.toNat ∧ s.block.nonce.toNat + s.tests work ≤ 2 ^ 64 := by
  have hnonce := s.block.nonce.toNat_lt
  unfold tests
  split
  next h =>
    rw [h]
    exact ⟨Nat.le_refl _, Nat.le_of_lt hnonce⟩
  next hne => exact ⟨UInt64.lt_of_le_of_ne hle hne, hnonce⟩

/-- A run from a state below the ceiling stops before the ceiling and the nonces are exceeded. -/
theorem exists_stopsAfter_run (work : Work) (hasher : Hasher) (seen : List Event) (s : Search)
    (hle : s.attempts ≤ work.limit) :
    ∃ k, StopsAfter work hasher s k (run work hasher seen s).result ∧
      s.attempts.toNat + k ≤ work.limit.toNat ∧ s.block.nonce.toNat + k ≤ 2 ^ 64 := by
  fun_induction run work hasher seen s with
  | case1 seen s result events hstep => exact ⟨_, .stop hstep, tests_le hle⟩
  | case2 seen s t events hstep ih =>
    obtain ⟨hne, hcount, hle'⟩ := attempts_of_step_eq_next hle hstep
    have hone : s.tests work = 1 := if_neg hne
    have hnonce := nonce_of_step_eq_next hstep
    obtain ⟨k, hstops, hlimit, hlast⟩ := ih hle'
    refine ⟨_, .next hstep hstops, ?_⟩
    omega

/-- A turn that gives up reports the attempts before it and its own test. -/
theorem toNat_attempts_of_step_eq_stop {attempts : UInt64} (hle : s.attempts ≤ work.limit)
    (h : s.step work hasher = .stop (.error (.exhausted attempts)) events) :
    attempts.toNat = s.attempts.toNat + s.tests work := by
  unfold step at h
  split at h
  next hceiling =>
    simp only [Turn.stop.injEq, Except.error.injEq, MiningError.exhausted.injEq] at h
    rw [← h.1, tests, if_pos hceiling, Nat.add_zero]
  next hne =>
    split at h
    next =>
      injection h with h
      contradiction
    next =>
      split at h
      next =>
        simp only [Turn.stop.injEq, Except.error.injEq, MiningError.exhausted.injEq] at h
        rw [← h.1, tests, if_neg hne, toNat_attempts_add_one hle hne]
      next => contradiction

/-- A search that gives up reports as many attempts as it has tested digests. -/
theorem StopsAfter.toNat_attempts {k : Nat} {attempts : UInt64}
    (h : StopsAfter work hasher s k (.error (.exhausted attempts))) (hle : s.attempts ≤ work.limit) :
    attempts.toNat = s.attempts.toNat + k := by
  generalize hresult : Except.error (MiningError.exhausted attempts) = result at h
  induction h with
  | stop hstep => exact toNat_attempts_of_step_eq_stop hle (hresult ▸ hstep)
  | next hstep _ ih =>
    obtain ⟨hne, hcount, hle'⟩ := attempts_of_step_eq_next hle hstep
    rw [ih hle' hresult, hcount, tests, if_neg hne, Nat.add_assoc]

end Search

namespace Work

variable {work : Work} {hasher : Hasher} {u : UnsealedBlock}

/-- From a block, the sequential search stops before the ceiling and the nonces are exceeded. -/
theorem exists_stopsAfter_mine (work : Work) (hasher : Hasher) (u : UnsealedBlock) :
    ∃ k ≤ min work.limit.toNat (2 ^ 64 - u.nonce.toNat),
      Search.StopsAfter work hasher ⟨u, 0⟩ k (work.mine hasher u).result := by
  obtain ⟨k, hstops, hlimit, hlast⟩ :=
    Search.exists_stopsAfter_run work hasher [] ⟨u, 0⟩ UInt64.zero_le
  have hzero : (0 : UInt64).toNat = 0 := rfl
  refine ⟨k, ?_, hstops⟩
  dsimp only at hlimit hlast
  omega

/-- What the searches count and subtract fits into words, from whatever nonce they start and whatever the
ceiling. Before every turn of the sequential search, its attempts are the distance of the nonce from the first
and no more than the ceiling, and as long as they are not the ceiling one more can be counted. The search stops
after no more tests than the ceiling and the nonces allow, and if it gives up it reports how many it made. The
range of the other search does not end before its start. A hit lies in the range, and the attempts up to a
nonce in the range are counted without wrapping and are no more than those of the whole range. -/
theorem counters_never_wrap (work : Work) (hasher : Hasher) (u : UnsealedBlock) :
    (∀ s, Search.Visits work hasher u s →
      u.nonce ≤ s.block.nonce ∧ s.attempts.toNat = s.block.nonce.toNat - u.nonce.toNat ∧
      s.attempts ≤ work.limit ∧
      (s.attempts ≠ work.limit → (s.attempts + 1).toNat = s.attempts.toNat + 1)) ∧
    (∃ tests ≤ min work.limit.toNat (2 ^ 64 - u.nonce.toNat),
      Search.StopsAfter work hasher ⟨u, 0⟩ tests (work.mine hasher u).result ∧
      ∀ attempts, (work.mine hasher u).result = .error (.exhausted attempts) →
        attempts.toNat = tests) ∧
    u.nonce ≤ work.rangeEnd u.nonce ∧
    (work.rangeAttempts u.nonce none).toNat = (work.rangeEnd u.nonce).toNat - u.nonce.toNat ∧
    (∀ hit, work.firstHit hasher u = some hit → u.nonce ≤ hit ∧ hit < work.rangeEnd u.nonce) ∧
    (∀ hit, u.nonce ≤ hit → hit < work.rangeEnd u.nonce →
      (work.rangeAttempts u.nonce (some hit)).toNat = hit.toNat - u.nonce.toNat + 1 ∧
      work.rangeAttempts u.nonce (some hit) ≤ work.rangeAttempts u.nonce none) := by
  refine ⟨?_, ?_, work.le_rangeEnd u.nonce, work.toNat_rangeAttempts_none u.nonce, ?_, ?_⟩
  · intro s hs
    obtain ⟨hdistance, hle⟩ := hs.counts
    have hnonce : u.nonce ≤ s.block.nonce := by
      rw [UInt64.le_iff_toNat_le, ← hdistance]
      exact Nat.le_add_right _ _
    exact ⟨hnonce, by omega, hle, Search.toNat_attempts_add_one hle⟩
  · obtain ⟨tests, hle, hstops⟩ := work.exists_stopsAfter_mine hasher u
    refine ⟨tests, hle, hstops, fun attempts hresult => ?_⟩
    rw [hresult] at hstops
    exact (hstops.toNat_attempts UInt64.zero_le).trans (Nat.zero_add tests)
  · intro hit hfirst
    have hlowest := firstHit_eq_some_iff.mp hfirst
    exact ⟨hlowest.start_le, hlowest.lt_bound⟩
  · intro hit hle hlt
    have hcount := toNat_rangeAttempts_some hle hlt
    have hlt' : hit.toNat < (work.rangeEnd u.nonce).toNat := hlt
    have hle' : u.nonce.toNat ≤ hit.toNat := hle
    refine ⟨hcount, ?_⟩
    rw [UInt64.le_iff_toNat_le, hcount, work.toNat_rangeAttempts_none]
    omega

/-- From the last nonce but one and without a ceiling, the sequential search comes to the greatest nonce with one
attempt counted, and the search over a range counts the hit at its start, which is all that the range holds. -/
theorem counters_near_greatest_nonce :
    let work : Work := ⟨8, none, by decide⟩
    let miss : Digest := ⟨List.replicate digestSize 255, rfl⟩
    let hasher : Hasher := .onSuffix (maxWord - 1) .zero miss
    let u : UnsealedBlock := ⟨⟨1, 0, [], .zero⟩, maxWord - 1, miss⟩
    let s : Search := ⟨Search.advance hasher u, 1⟩
    s.attempts.toNat = s.block.nonce.toNat - u.nonce.toNat ∧
      (s.attempts + 1).toNat = s.attempts.toNat + 1 ∧
      work.firstHit hasher u = some (maxWord - 1) ∧
      (work.rangeAttempts u.nonce (some (maxWord - 1))).toNat = 1 := by
  intro work miss hasher u s
  obtain ⟨hvisits, -, -, -, hrange, hcount⟩ := counters_never_wrap work hasher u
  have hwarnings : Search.warnings work 1 1 = [] := if_neg (by decide)
  have hstep : Search.step work hasher ⟨u, 0⟩ = .next s [] := by
    rw [Search.step, if_neg (by decide), if_neg (by decide), if_neg (by decide)]
    exact congrArg (Search.Turn.next s) hwarnings
  have hceiling : s.attempts ≠ work.limit := by
    show (1 : UInt64) ≠ maxWord
    decide
  obtain ⟨-, hdistance, -, hnext⟩ := hvisits s (.next .start hstep)
  have hhit : work.firstHit hasher u = some (maxWord - 1) := by
    refine firstHit_eq_some_iff.mpr ⟨UInt64.le_refl _, by decide, ?_, fun m hm hlt => ?_⟩
    · rw [Contents.digestWith_onSuffix, if_pos rfl]
      decide
    · exact absurd hlt (UInt64.not_lt.mpr hm)
  obtain ⟨hle, hlt⟩ := hrange _ hhit
  refine ⟨hdistance, hnext hceiling, hhit, ?_⟩
  rw [(hcount _ hle hlt).1, Nat.sub_self]

end Work

end MinedChain
