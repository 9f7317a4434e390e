import MinedChain.Proofs.GreatestNonce

/-!
# The events of a search

A search that goes far past expectation is reported once at most. The sequential search looks for this behind
each attempt that fails, so a report comes at the threshold itself, and none at an attempt that hits. The
search over a range looks once, when it is over, and counts the attempt that hits. Behind the report there is
one event more, which tells how the search ended; only where the nonces run out, the sequential search ends
without a word.
-/

namespace MinedChain

namespace Work

variable {work : Work} {hasher : Hasher} {u : UnsealedBlock} {index n : UInt64} {k : Nat}

/-! ## Reports -/

end Work

end MinedChain
