import MinedChain.Event

/-!
# Proof of work

A difficulty that digests can meet, and an optional ceiling on attempts. A search that makes
thirty-two times the attempts one expects at its difficulty is reported; where that number is no
64-bit word, no search can get there.
-/

namespace MinedChain

/-- The greatest word, which stands for the missing ceiling of a search. -/
def maxWord : UInt64 := 0xffffffffffffffff

/-- What a search has to find and how long it may take. -/
structure Work where
  difficulty : UInt32
  maxAttempts : Option UInt64
  difficulty_le : difficulty.toNat ≤ digestBits

namespace Work

/-- The work of a difficulty, refused when the difficulty is wider than a digest. -/
def ofDifficulty (difficulty : UInt32) (maxAttempts : Option UInt64) :
    Except ConfigError Work :=
  if h : difficulty.toNat ≤ digestBits then .ok ⟨difficulty, maxAttempts, h⟩
  else .error (.difficultyTooHigh difficulty)

/-- The ceiling on attempts. -/
def limit (w : Work) : UInt64 := w.maxAttempts.getD maxWord

/-- The difficulty of a search is never wider than a digest, so only the zero bits are left to count. -/
theorem meets_iff (w : Work) (d : Digest) :
    d.Meets w.difficulty ↔ w.difficulty.toNat ≤ d.leadingZeroBits :=
  and_iff_right w.difficulty_le

/-- The mean number of attempts until a digest meets the difficulty. -/
def expectedAttempts (w : Work) : Nat := Nat.pow 2 w.difficulty.toNat

/-- How many times the expected attempts a search may make before it is reported. -/
def warningFactor : Nat := 32

/-- The attempts after which a search is reported, if they are a word. -/
def warningThreshold (w : Work) : Option UInt64 :=
  let threshold := w.expectedAttempts * warningFactor
  if threshold < UInt64.size then some (UInt64.ofNat threshold) else none

end Work

end MinedChain
