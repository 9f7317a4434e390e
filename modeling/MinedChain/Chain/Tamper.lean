import MinedChain.Block.Json
import MinedChain.Chain

/-!
# Tampering

What someone does who has a chain's blocks as a JSON tree: change one number in it, and wrap the
blocks that the tree then holds under the same rules. The lowest bit of the first octet of one
block's payload is flipped; nothing is mined again.
-/

namespace MinedChain

/-- Why a chain was not tampered with. -/
inductive TamperError where
  /-- The block does not exist, or has nothing to flip. -/
  | nothingToFlip (position : UInt64)
  /-- The changed tree is not one of blocks, and this is what is said about it. -/
  | unfitTree (words : String)
  | chain (cause : ChainError)
deriving DecidableEq, Repr

namespace TamperError

def message : TamperError → String
  | nothingToFlip position =>
    "block " ++ Decimal.text position.toNat ++ " does not exist or has an empty payload"
  | unfitTree words => words
  | chain cause => cause.message

/-- The words of the error behind this one. -/
def source? : TamperError → Option String
  | chain cause => cause.source?
  | _ => none

end TamperError

namespace Json.Value

/-- The number with its lowest bit flipped; anything else counts as zero. -/
def flipLowBit (v : Value) : Value := .num (v.num?.getD 0 ^^^ 1)

/-- Flips the lowest bit of the first octet of a payload, in an array of blocks. -/
def tamper? (i : Nat) (blocks : Value) : Option Value :=
  blocks.modifyItem? i fun block =>
    block.modifyMember? "payload" fun payload =>
      payload.modifyItem? 0 fun octet => some octet.flipLowBit

end Json.Value

namespace Chain

/-- The chain with a bit of one payload flipped. -/
def tamper (c : Chain) (wording : Json.Wording) (position : UInt64) : Except TamperError Chain :=
  match (Block.listToJson c.blocks).tamper? position.toNat with
  | none => .error (.nothingToFlip position)
  | some tree =>
    match Block.listOfJson? tree with
    | none => .error (.unfitTree (wording.ofTree tree))
    | some bs => (ofBlocks c.rules.config c.rules.hasher bs).mapError .chain

end Chain

end MinedChain
