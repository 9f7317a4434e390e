import MinedChain.Block
import MinedChain.Traced
import MinedChain.Work

/-!
# Sequential search

The search tests the stored digest of the block it is given, whether or not that digest belongs to the
stored nonce; then it raises the nonce by one, recomputes the digest and tests again. It stops at the
first digest that meets the difficulty, at the ceiling on attempts, or behind the greatest nonce.
`step` is one turn of it and `run` the turns up to its end.
-/

namespace MinedChain

/-- Where a sequential search stands: the block to be tested next, and the attempts made so far. -/
structure Search where
  block : UnsealedBlock
  attempts : UInt64
deriving DecidableEq

namespace Search

/-- What one turn of a search leads to, with its events. -/
inductive Turn where
  | stop (result : Except MiningError Block) (events : List Event)
  | next (search : Search) (events : List Event)

/-- The block with the next nonce and the digest that belongs to it. -/
def advance (hasher : Hasher) (u : UnsealedBlock) : UnsealedBlock :=
  (u.setNonce (u.nonce + 1)).recompute hasher

/-- The warning after an attempt that failed: it is given at the threshold, and nowhere else. -/
def warnings (work : Work) (index attempts : UInt64) : List Event :=
  if work.warningThreshold = some attempts then
    [.farPastExpectation index attempts work.expectedAttempts]
  else []

/-- One turn: the ceiling is checked, the attempt is counted, the stored digest is tested, and unless
the nonces have run out the next block is made. -/
def step (work : Work) (hasher : Hasher) (s : Search) : Turn :=
  if s.attempts = work.limit then
    .stop (.error (.exhausted s.attempts)) [.gaveUp s.block.index s.attempts]
  else if s.block.digest.Meets work.difficulty then
    .stop (.ok s.block.sealed)
      [.mined s.block.index s.block.nonce s.block.digest (s.attempts + 1)]
  else if s.block.nonce = maxWord then
    .stop (.error (.exhausted (s.attempts + 1))) (warnings work s.block.index (s.attempts + 1))
  else
    .next ⟨advance hasher s.block, s.attempts + 1⟩ (warnings work s.block.index (s.attempts + 1))

/-- A turn that is not the last comes before the ceiling and the last nonce, counts one attempt, and goes on to
the next nonce. -/
theorem of_step_eq_next {work : Work} {hasher : Hasher} {s t : Search} {events : List Event}
    (h : s.step work hasher = .next t events) :
    s.attempts ≠ work.limit ∧ s.block.nonce ≠ maxWord ∧
      t = ⟨advance hasher s.block, s.attempts + 1⟩ := by
  unfold step at h
  split at h
  · contradiction
  next hceiling =>
    split at h
    · contradiction
    · split at h
      · contradiction
      next hlast =>
        injection h with h _
        exact ⟨hceiling, hlast, h.symm⟩

/-- A turn that is not the last raises the nonce by one, without wrapping. -/
theorem nonce_of_step_eq_next {work : Work} {hasher : Hasher} {s t : Search} {events : List Event}
    (h : s.step work hasher = .next t events) :
    t.block.nonce.toNat = s.block.nonce.toNat + 1 := by
  obtain ⟨-, hne, rfl⟩ := of_step_eq_next h
  -- the greatest nonce was excluded, so adding one does not wrap
  have hlt : s.block.nonce.toNat < 2 ^ 64 - 1 := by
    have := s.block.nonce.toNat_lt
    have : s.block.nonce.toNat ≠ 2 ^ 64 - 1 := fun heq => hne (UInt64.toNat_inj.mp heq)
    omega
  show (s.block.nonce + 1).toNat = _
  rw [UInt64.toNat_add]
  exact Nat.mod_eq_of_lt (by simp only [UInt64.toNat_one]; omega)

/-- The turns from `s` to the end. `seen` holds the events before them. -/
def run (work : Work) (hasher : Hasher) (seen : List Event) (s : Search) :
    Traced MiningError Block :=
  match _h : s.step work hasher with
  | .stop result events => ⟨result, seen ++ events⟩
  | .next t events => run work hasher (seen ++ events) t
termination_by UInt64.size - s.block.nonce.toNat
decreasing_by
  have := nonce_of_step_eq_next _h
  have : t.block.nonce.toNat < UInt64.size := t.block.nonce.toNat_lt
  omega

theorem run_of_step_eq_stop {work : Work} {hasher : Hasher} {s : Search}
    {result : Except MiningError Block} {events : List Event}
    (h : s.step work hasher = .stop result events) (seen : List Event) :
    run work hasher seen s = ⟨result, seen ++ events⟩ := by
  rw [run]
  split
  next h' => rw [h] at h'; injection h' with h₁ h₂; rw [h₁, h₂]
  next h' => rw [h] at h'; contradiction

theorem run_of_step_eq_next {work : Work} {hasher : Hasher} {s t : Search} {events : List Event}
    (h : s.step work hasher = .next t events) (seen : List Event) :
    run work hasher seen s = run work hasher (seen ++ events) t := by
  rw [run]
  split
  next h' => rw [h] at h'; contradiction
  next h' => rw [h] at h'; injection h' with h₁ h₂; rw [h₁, h₂]

end Search

namespace Work

/-- The sequential search from the block as it is. -/
def mine (work : Work) (hasher : Hasher) (u : UnsealedBlock) : Traced MiningError Block :=
  Search.run work hasher [] ⟨u, 0⟩

end Work

end MinedChain
