import MinedChain.Proofs.Words
import MinedChain.Work.Sequential

/-!
# The attempts of a sequential search

A search that has gone through `k` attempts without stopping stands in one state only: the nonce has
been raised by `k`, `k` attempts are counted, and the stored digest is the one of that nonce. So a run
is settled by the first attempt that hits, by the ceiling or by the last nonce, whichever comes first.
-/

namespace MinedChain

namespace UnsealedBlock

/-- The digest that a search from the block tests at a nonce. At the stored nonce it is the stored
digest, whether or not it is out of date, and behind it the digest of the contents. -/
def testedDigest (u : UnsealedBlock) (hasher : Hasher) (nonce : UInt64) : Digest :=
  if nonce = u.nonce then u.digest else u.toContents.digestWith hasher nonce

/-- The block at another nonce, with the digest that is tested there. -/
def atNonce (u : UnsealedBlock) (hasher : Hasher) (nonce : UInt64) : UnsealedBlock :=
  { u with nonce, digest := u.testedDigest hasher nonce }

/-- A new block's digest is up to date, so that every tested digest is one of the contents. -/
theorem testedDigest_ofContents (c : Contents) (hasher : Hasher) (nonce : UInt64) :
    (ofContents c hasher).testedDigest hasher nonce = c.digestWith hasher nonce := by
  unfold testedDigest
  split
  next h => rw [h]; rfl
  next => rfl

theorem atNonce_self (u : UnsealedBlock) (hasher : Hasher) : u.atNonce hasher u.nonce = u := by
  rw [atNonce, testedDigest, if_pos rfl]

end UnsealedBlock

namespace Search

variable {work : Work} {hasher : Hasher} {u : UnsealedBlock} {k : Nat}

/-- Where a search from a block stands after `k` attempts that failed. -/
def afterMisses (hasher : Hasher) (u : UnsealedBlock) (k : Nat) : Search :=
  ⟨u.atNonce hasher (u.nonce + UInt64.ofNat k), UInt64.ofNat k⟩

/-- The attempt after `k` failed ones hits. -/
def Hits (work : Work) (hasher : Hasher) (u : UnsealedBlock) (k : Nat) : Prop :=
  (u.testedDigest hasher (u.nonce + UInt64.ofNat k)).Meets work.difficulty

theorem afterMisses_zero (hasher : Hasher) (u : UnsealedBlock) :
    afterMisses hasher u 0 = ⟨u, 0⟩ := by
  have hnonce : u.nonce + UInt64.ofNat 0 = u.nonce := UInt64.add_zero _
  rw [afterMisses, hnonce, u.atNonce_self]
  rfl

theorem advance_atNonce (h : k + 1 < 2 ^ 64) :
    advance hasher (u.atNonce hasher (u.nonce + UInt64.ofNat k))
      = u.atNonce hasher (u.nonce + UInt64.ofNat (k + 1)) := by
  have hsum : u.nonce + UInt64.ofNat k + 1 = u.nonce + UInt64.ofNat (k + 1) := by
    rw [UInt64.ofNat_add, UInt64.add_assoc]
    rfl
  -- fewer than `2 ^ 64` steps do not lead back to the stored nonce
  have hne : u.nonce + UInt64.ofNat (k + 1) ≠ u.nonce := by
    intro heq
    have hzero : UInt64.ofNat (k + 1) = 0 := by
      rw [← UInt64.add_right_inj u.nonce, heq, UInt64.add_zero]
    have := congrArg UInt64.toNat hzero
    rw [UInt64.toNat_ofNat_of_lt' h] at this
    exact absurd this (Nat.succ_ne_zero k)
  have hdigest : u.testedDigest hasher (u.nonce + UInt64.ofNat (k + 1))
      = u.toContents.digestWith hasher (u.nonce + UInt64.ofNat (k + 1)) := if_neg hne
  show _ = { u with nonce := _, digest := u.testedDigest hasher (u.nonce + UInt64.ofNat (k + 1)) }
  rw [hdigest, ← hsum]
  rfl

/-! ## One turn -/

theorem attempts_afterMisses_ne_limit (h : k < work.limit.toNat) :
    (afterMisses hasher u k).attempts ≠ work.limit :=
  UInt64.ne_of_lt (ofNat_lt_of_lt_toNat h)

theorem step_afterMisses_of_limit (h : k = work.limit.toNat) :
    step work hasher (afterMisses hasher u k)
      = .stop (.error (.exhausted work.limit)) [.gaveUp u.index work.limit] := by
  have hattempts : (afterMisses hasher u k).attempts = work.limit := by
    rw [h]
    exact UInt64.ofNat_toNat
  rw [step, if_pos hattempts, hattempts]
  rfl

theorem step_afterMisses_of_hit (h : k < work.limit.toNat) (hhit : Hits work hasher u k) :
    step work hasher (afterMisses hasher u k)
      = .stop (.ok (u.atNonce hasher (u.nonce + UInt64.ofNat k)).sealed)
          [.mined u.index (u.nonce + UInt64.ofNat k)
            (u.testedDigest hasher (u.nonce + UInt64.ofNat k)) (UInt64.ofNat (k + 1))] := by
  have hcount : UInt64.ofNat (k + 1) = UInt64.ofNat k + 1 := UInt64.ofNat_add k 1
  have hmeets : (afterMisses hasher u k).block.digest.Meets work.difficulty := hhit
  rw [step, if_neg (attempts_afterMisses_ne_limit h), if_pos hmeets, hcount]
  rfl

theorem step_afterMisses_of_miss (h : k < work.limit.toNat)
    (hnonce : u.nonce.toNat + (k + 1) < 2 ^ 64) (hmiss : ¬ Hits work hasher u k) :
    step work hasher (afterMisses hasher u k)
      = .next (afterMisses hasher u (k + 1))
          (warnings work u.index (UInt64.ofNat (k + 1))) := by
  have hcount : UInt64.ofNat (k + 1) = UInt64.ofNat k + 1 := UInt64.ofNat_add k 1
  have hfails : ¬ (afterMisses hasher u k).block.digest.Meets work.difficulty := hmiss
  have hlast : (afterMisses hasher u k).block.nonce ≠ maxWord := by
    intro (heq : u.nonce + UInt64.ofNat k = maxWord)
    have hsum : (u.nonce + UInt64.ofNat k).toNat = u.nonce.toNat + k :=
      toNat_add_ofNat (by omega)
    rw [heq, toNat_maxWord] at hsum
    omega
  have hadvance : advance hasher (afterMisses hasher u k).block
      = (afterMisses hasher u (k + 1)).block := advance_atNonce (by omega)
  rw [step, if_neg (attempts_afterMisses_ne_limit h), if_neg hfails, if_neg hlast, hadvance]
  show Turn.next ⟨_, UInt64.ofNat k + 1⟩ (warnings work u.index (UInt64.ofNat k + 1)) = _
  rw [← hcount]
  rfl

theorem step_afterMisses_of_last (h : k < work.limit.toNat) (hnonce : u.nonce.toNat + k + 1 = 2 ^ 64)
    (hmiss : ¬ Hits work hasher u k) :
    step work hasher (afterMisses hasher u k)
      = .stop (.error (.exhausted (UInt64.ofNat (k + 1))))
          (warnings work u.index (UInt64.ofNat (k + 1))) := by
  have hcount : UInt64.ofNat (k + 1) = UInt64.ofNat k + 1 := UInt64.ofNat_add k 1
  have hfails : ¬ (afterMisses hasher u k).block.digest.Meets work.difficulty := hmiss
  have hlast : (afterMisses hasher u k).block.nonce = maxWord := by
    show u.nonce + UInt64.ofNat k = maxWord
    rw [← UInt64.toNat_inj, toNat_add_ofNat (by omega), toNat_maxWord]
    omega
  rw [step, if_neg (attempts_afterMisses_ne_limit h), if_neg hfails, if_pos hlast, hcount]
  rfl

/-! ## The turns of a run -/

/-- The warnings of the first `k` attempts, when they all fail. -/
def warningsOfMisses (work : Work) (index : UInt64) (k : Nat) : List Event :=
  (List.range k).flatMap fun j => warnings work index (UInt64.ofNat (j + 1))

theorem warningsOfMisses_succ (work : Work) (index : UInt64) (k : Nat) :
    warningsOfMisses work index (k + 1) =
      warningsOfMisses work index k ++ warnings work index (UInt64.ofNat (k + 1)) := by
  rw [warningsOfMisses, warningsOfMisses, List.range_succ, List.flatMap_append, List.flatMap_singleton]

/-- As long as the attempts fail and neither the ceiling nor the last nonce is behind it, the search
goes on from the state after its misses. -/
theorem mine_eq_run_afterMisses (hlimit : k ≤ work.limit.toNat) (hnonce : u.nonce.toNat + k < 2 ^ 64)
    (hmiss : ∀ j < k, ¬ Hits work hasher u j) :
    work.mine hasher u = run work hasher (warningsOfMisses work u.index k) (afterMisses hasher u k) := by
  induction k with
  | zero =>
    rw [afterMisses_zero]
    rfl
  | succ k ih =>
    have hstep : step work hasher (afterMisses hasher u k) = _ :=
      step_afterMisses_of_miss (Nat.lt_of_succ_le hlimit) hnonce (hmiss k (Nat.lt_succ_self k))
    rw [ih (by omega) (by omega) fun j hj => hmiss j (by omega), run_of_step_eq_next hstep,
      warningsOfMisses_succ]

/-- The first attempt that hits, before the ceiling, seals the block. -/
theorem mine_of_hit (hlimit : k < work.limit.toNat) (hnonce : u.nonce.toNat + k < 2 ^ 64)
    (hmiss : ∀ j < k, ¬ Hits work hasher u j) (hhit : Hits work hasher u k) :
    work.mine hasher u =
      ⟨.ok (u.atNonce hasher (u.nonce + UInt64.ofNat k)).sealed,
        warningsOfMisses work u.index k ++
          [.mined u.index (u.nonce + UInt64.ofNat k)
            (u.testedDigest hasher (u.nonce + UInt64.ofNat k)) (UInt64.ofNat (k + 1))]⟩ := by
  rw [mine_eq_run_afterMisses (Nat.le_of_lt hlimit) hnonce hmiss,
    run_of_step_eq_stop (step_afterMisses_of_hit hlimit hhit)]

/-- A search none of whose attempts hits stops at the ceiling, if it comes before the last nonce. -/
theorem mine_of_limit (hnonce : u.nonce.toNat + work.limit.toNat < 2 ^ 64)
    (hmiss : ∀ j < work.limit.toNat, ¬ Hits work hasher u j) :
    work.mine hasher u =
      ⟨.error (.exhausted work.limit),
        warningsOfMisses work u.index work.limit.toNat ++ [.gaveUp u.index work.limit]⟩ := by
  rw [mine_eq_run_afterMisses (Nat.le_refl _) hnonce hmiss,
    run_of_step_eq_stop (step_afterMisses_of_limit rfl)]

/-- A search none of whose attempts hits stops behind the last nonce, if it comes before the ceiling. -/
theorem mine_of_last (hlimit : k < work.limit.toNat) (hnonce : u.nonce.toNat + k + 1 = 2 ^ 64)
    (hmiss : ∀ j < k + 1, ¬ Hits work hasher u j) :
    work.mine hasher u =
      ⟨.error (.exhausted (UInt64.ofNat (k + 1))), warningsOfMisses work u.index (k + 1)⟩ := by
  have hbefore : ∀ j < k, ¬ Hits work hasher u j := fun j hj => hmiss j (by omega)
  rw [mine_eq_run_afterMisses (Nat.le_of_lt hlimit) (by omega) hbefore,
    run_of_step_eq_stop (step_afterMisses_of_last hlimit hnonce (hmiss k (Nat.lt_succ_self k))),
    warningsOfMisses_succ]

end Search

end MinedChain
