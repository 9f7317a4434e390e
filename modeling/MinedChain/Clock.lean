/-!
# Clock readings

A clock gives whole seconds since the epoch and may read before it. Blocks are stamped with a word,
and a reading before the epoch stamps zero.
-/

namespace MinedChain

/-- The stamp of a clock reading in seconds since the epoch. -/
def stampOf (seconds : Int) : UInt64 := UInt64.ofNat seconds.toNat

end MinedChain
