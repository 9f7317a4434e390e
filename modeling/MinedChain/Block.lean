import MinedChain.Hasher

/-!
# Blocks

What a block records, apart from its seal, are its *contents*: its index, its time, its payload and
the digest of the block before it. Together with a nonce they have one canonical encoding, which is
what a digest commits to. A block that is still being mined may hold any nonce and a digest that is
out of date; sealing it freezes both.
-/

namespace MinedChain

/-- What a block records, apart from the nonce and the digest that seal it. -/
structure Contents where
  index : UInt64
  timestamp : UInt64
  payload : Bytes
  previousDigest : Digest
deriving DecidableEq

namespace Contents

/-- The canonical encoding: index, time and length of the payload as words, the payload, the previous
digest, and the nonce as a word. -/
def encode (c : Contents) (nonce : UInt64) : Bytes :=
  Bytes.ofWord c.index ++ (Bytes.ofWord c.timestamp
    ++ (Bytes.ofWord (UInt64.ofNat c.payload.length)
      ++ (c.payload ++ (c.previousDigest.bytes ++ Bytes.ofWord nonce))))

/-- The digest of the contents under a nonce. -/
def digestWith (c : Contents) (hasher : Hasher) (nonce : UInt64) : Digest :=
  hasher.digest (c.encode nonce)

@[simp] theorem length_encode (c : Contents) (nonce : UInt64) :
    (c.encode nonce).length = c.payload.length + 64 := by
  simp only [encode, List.length_append, Bytes.length_ofWord, c.previousDigest.length_bytes,
    digestSize]
  omega

end Contents

/-- A mined block. -/
structure Block extends Contents where
  nonce : UInt64
  digest : Digest
deriving DecidableEq

namespace Block

/-- The octets that the block's digest should commit to. -/
def encode (b : Block) : Bytes := b.toContents.encode b.nonce

/-- The digest that the block's contents and nonce have; the stored one may differ. -/
def computeDigest (b : Block) (hasher : Hasher) : Digest := b.toContents.digestWith hasher b.nonce

end Block

/-- A block that is still being mined. -/
structure UnsealedBlock extends Contents where
  nonce : UInt64
  digest : Digest
deriving DecidableEq

namespace UnsealedBlock

/-- Sets the stored digest to that of the contents under the stored nonce. -/
def recompute (u : UnsealedBlock) (hasher : Hasher) : UnsealedBlock :=
  { u with digest := u.toContents.digestWith hasher u.nonce }

/-- Sets the nonce. The stored digest is out of date until it is recomputed. -/
def setNonce (u : UnsealedBlock) (nonce : UInt64) : UnsealedBlock := { u with nonce }

/-- The contents at nonce zero, with the digest that belongs to it. -/
def ofContents (c : Contents) (hasher : Hasher) : UnsealedBlock :=
  { c with nonce := 0, digest := c.digestWith hasher 0 }

/-- Freezes the block as it is. -/
def sealed (u : UnsealedBlock) : Block :=
  { u.toContents with nonce := u.nonce, digest := u.digest }

end UnsealedBlock

end MinedChain
