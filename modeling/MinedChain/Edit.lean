import MinedChain.Chain

/-!
# Edits of block lists

How blocks from elsewhere may have come to differ from mined ones: a field set to another value, a bit
flipped, a digest or a whole seal made again, blocks left out, put in, doubled or exchanged. An edit
changes what it names and nothing else. An edit at a position that does not exist changes nothing.
-/

namespace MinedChain

/-- A field of a block with the value to be put into it. -/
inductive FieldValue where
  | index (w : UInt64)
  | timestamp (w : UInt64)
  | payload (bs : Bytes)
  | previousDigest (d : Digest)
  | nonce (w : UInt64)
  | digest (d : Digest)

namespace FieldValue

/-- The block with the value in the field. -/
def store (b : Block) : FieldValue → Block
  | index w => { b with index := w }
  | timestamp w => { b with timestamp := w }
  | payload bs => { b with payload := bs }
  | previousDigest d => { b with previousDigest := d }
  | nonce w => { b with nonce := w }
  | digest d => { b with digest := d }

end FieldValue

/-- A field that holds octets. -/
inductive OctetField where
  | payload
  | previousDigest
  | digest

/-- Changes one bit of one octet; bit 0 is the lowest. -/
def Bytes.flipBit (bs : Bytes) (octet bit : Nat) : Bytes :=
  bs.modify octet (· ^^^ (1 <<< UInt8.ofNat bit))

/-- Changes one bit of one octet of a digest. -/
def Digest.flipBit (d : Digest) (octet bit : Nat) : Digest :=
  ⟨Bytes.flipBit d.bytes octet bit, by rw [Bytes.flipBit, List.length_modify, d.length_bytes]⟩

namespace Block

/-- The block with one bit of a field changed. -/
def flipBit (b : Block) (field : OctetField) (octet bit : Nat) : Block :=
  match field with
  | .payload => { b with payload := Bytes.flipBit b.payload octet bit }
  | .previousDigest => { b with previousDigest := b.previousDigest.flipBit octet bit }
  | .digest => { b with digest := b.digest.flipBit octet bit }

end Block

/-- A change of a list of blocks, most of them at a position. -/
inductive Edit where
  | store (position : Nat) (value : FieldValue)
  | flip (position : Nat) (field : OctetField) (octet bit : Nat)
  /-- Stores the digest that the contents and the nonce have. -/
  | rehash (position : Nat)
  /-- Mines the contents again from nonce zero. -/
  | remine (position : Nat)
  | remove (position : Nat)
  | insert (position : Nat) (block : Block)
  /-- Puts the block of another position in. -/
  | duplicate (position source : Nat)
  | swap (position other : Nat)
  /-- Keeps as many blocks, from the front. -/
  | truncate (length : Nat)

namespace Edit

/-- The blocks after the edit, with the given settings and hasher for digests and seals. -/
def apply (config : Config) (hasher : Hasher) (bs : List Block) :
    Edit → Traced ChainError (List Block)
  | store i value => pure (bs.modify i (value.store ·))
  | flip i field octet bit => pure (bs.modify i (·.flipBit field octet bit))
  | rehash i => pure (bs.modify i fun b => { b with digest := b.computeDigest hasher })
  | remine i =>
    match bs[i]? with
    | none => pure bs
    | some b =>
      match config.work with
      | .error e => ⟨.error (.config e), []⟩
      | .ok work => do
        let sealedBlock ←
          (work.mine hasher (UnsealedBlock.ofContents b.toContents hasher)).mapError .mining
        return bs.set i sealedBlock
  | remove i => pure (bs.eraseIdx i)
  | insert i b => pure (bs.insertIdx i b)
  | duplicate i j =>
    match bs[j]? with
    | none => pure bs
    | some b => pure (bs.insertIdx i b)
  | swap i j =>
    match bs[i]?, bs[j]? with
    | some b, some c => pure ((bs.set i c).set j b)
    | _, _ => pure bs
  | truncate n => pure (bs.take n)

/-- The blocks after all edits, in order, up to the first that fails. -/
def applyAll (config : Config) (hasher : Hasher) (edits : List Edit) (bs : List Block) :
    Traced ChainError (List Block) :=
  edits.foldlM (fun bs e => e.apply config hasher bs) bs

end Edit

namespace Chain

/-- A chain of this chain's blocks after edits, under other settings or another hasher. -/
def rebuild (c : Chain) (config : Config) (hasher : Hasher) (edits : List Edit) :
    Traced ChainError Chain := do
  let bs ← Edit.applyAll config hasher edits c.blocks
  Traced.ofResult (ofBlocks config hasher bs)

end Chain

end MinedChain
