import MinedChain.Rules

/-!
# Verdicts

A block at a position is checked against the block before it. The checks come in a fixed order, and
the first that fails is the block's *defect*: the identity of the genesis block or the link to the
block before, then the index, the digest and the work. The verdict on a list of blocks is the defect
of the first block that has one.
-/

namespace MinedChain.Rules

/-- The block is the configured genesis block, nonce and digest aside. -/
def IsGenesis (r : Rules) (b : Block) : Prop := b.toContents = r.genesisContents

instance (r : Rules) (b : Block) : Decidable (r.IsGenesis b) :=
  inferInstanceAs (Decidable (_ = _))

/-- What is wrong between the block and the block before it, or with a first block. -/
def linkDefect? (r : Rules) (predecessor : Option Block) (b : Block) : Option ViolationKind :=
  match predecessor with
  | none => if r.IsGenesis b then none else some .genesisMismatch
  | some p => if b.previousDigest = p.digest then none else some .brokenLink

/-- The first check that a block fails at a position. -/
def defect? (r : Rules) (position : UInt64) (predecessor : Option Block) (b : Block) :
    Option ViolationKind :=
  match r.linkDefect? predecessor b with
  | some kind => some kind
  | none =>
    if b.index ≠ position then some .indexMismatch
    else if b.computeDigest r.hasher ≠ b.digest then some .digestMismatch
    else if ¬b.digest.Meets r.work.difficulty then some .insufficientWork
    else none

/-- The first violation among blocks that follow `predecessor`, the first of them at `position`. -/
def firstViolation? (r : Rules) (position : Nat) (predecessor : Option Block) :
    List Block → Option Violation
  | [] => none
  | b :: bs =>
    match r.defect? (UInt64.ofNat position) predecessor b with
    | some kind => some ⟨UInt64.ofNat position, kind⟩
    | none => r.firstViolation? (position + 1) (some b) bs

/-- The verdict on a whole list of blocks, with the event that reports it. -/
def verdict (r : Rules) (bs : List Block) : Traced Violation Unit :=
  match r.firstViolation? 0 none bs with
  | none => ⟨.ok (), [.chainValidated bs.length]⟩
  | some v => ⟨.error v, [.validationFailed v]⟩

end MinedChain.Rules
