import MinedChain.Block
import MinedChain.Traced
import MinedChain.Work

/-!
# Search over a range

The nonces to be tried are fixed beforehand: as many as the ceiling allows, from that of the block
given, but never the greatest nonce. The lowest nonce whose digest meets the difficulty is taken, so
that the order in which they are tried does not matter. Here they are tried from the lowest up.
-/

namespace MinedChain

/-- The lowest word from `start` up to but not including `stop` that satisfies `p`. -/
def firstInRange (p : UInt64 → Bool) (start stop : UInt64) : Option UInt64 :=
  if start < stop then
    if p start then some start else firstInRange p (start + 1) stop
  else none
termination_by stop.toNat - start.toNat
decreasing_by
  rename_i h _
  -- start lies below another word, so adding one does not wrap
  have hlt : start.toNat < stop.toNat := h
  have := stop.toNat_lt
  have : (start + 1).toNat = start.toNat + 1 := by
    rw [UInt64.toNat_add]
    exact Nat.mod_eq_of_lt (by simp only [UInt64.toNat_one]; omega)
  omega

namespace Work

/-- The end of the nonces that a search from `start` tries; no sum goes beyond the greatest word. -/
def rangeEnd (work : Work) (start : UInt64) : UInt64 :=
  match work.maxAttempts with
  | some n => if start.toNat + n.toNat < UInt64.size then start + n else maxWord
  | none => maxWord

/-- The lowest nonce in range whose digest meets the difficulty. -/
def firstHit (work : Work) (hasher : Hasher) (u : UnsealedBlock) : Option UInt64 :=
  firstInRange (fun nonce => (u.toContents.digestWith hasher nonce).Meets work.difficulty) u.nonce
    (work.rangeEnd u.nonce)

/-- The attempts of a search: up to its hit, or the whole range. -/
def rangeAttempts (work : Work) (start : UInt64) : Option UInt64 → UInt64
  | some hit => hit - start + 1
  | none => work.rangeEnd start - start

/-- The warning after a search that made as many attempts as the threshold, or more. -/
def rangeWarnings (work : Work) (index attempts : UInt64) : List Event :=
  if work.warningThreshold.any (· ≤ attempts) then
    [.farPastExpectation index attempts work.expectedAttempts]
  else []

/-- The search over a range of nonces, from that of the block given. -/
def mineRange (work : Work) (hasher : Hasher) (u : UnsealedBlock) : Traced MiningError Block :=
  let hit := work.firstHit hasher u
  let attempts := work.rangeAttempts u.nonce hit
  match hit with
  | some nonce =>
    let b := ((u.setNonce nonce).recompute hasher).sealed
    ⟨.ok b, rangeWarnings work u.index attempts ++ [.minedInRange b.index b.nonce b.digest]⟩
  | none =>
    ⟨.error (.exhausted attempts),
      rangeWarnings work u.index attempts ++ [.gaveUpRange u.index attempts]⟩

end Work

end MinedChain
