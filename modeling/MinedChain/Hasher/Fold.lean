import MinedChain.Hasher

/-!
# A folding hasher

Four lanes fold the octets into a 64-bit word each, by exclusive or and multiplication, and finish by
scrambling the word. The lanes differ in their starting word only. It is fast and well mixed, and no
protection against anyone who looks for collisions.
-/

namespace MinedChain.Fold

/-- The word before the first octet, for lane 0. -/
def basis : UInt64 := 0xcbf29ce484222325

/-- Mixes one octet into the word. -/
def absorb (h : UInt64) (b : UInt8) : UInt64 := (h ^^^ b.toUInt64) * 0x100000001b3

/-- Scrambles the word after the last octet. -/
def finish (h : UInt64) : UInt64 :=
  let h := h ^^^ (h >>> 33)
  let h := h * 0xff51afd7ed558ccd
  let h := h ^^^ (h >>> 33)
  let h := h * 0xc4ceb9fe1a85ec53
  h ^^^ (h >>> 33)

/-- The word of one lane. -/
def lane (message : Bytes) (number : UInt64) : UInt64 :=
  finish (message.foldl absorb (basis ^^^ number))

/-- The words of the four lanes, each most significant octet first. -/
def digest (message : Bytes) : Digest :=
  ⟨[0, 1, 2, 3].flatMap fun number => Bytes.ofWord (lane message number), rfl⟩

/-- The four lanes as a hasher. -/
def hasher : Hasher := ⟨"fold", digest⟩

end MinedChain.Fold
