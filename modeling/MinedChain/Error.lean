import MinedChain.Digest
import MinedChain.Json.Fault
import MinedChain.Text.Decimal

/-!
# What can go wrong

A configuration is refused, a search gives up, a chain cannot be made or extended, or a chain that was
made breaks one of its invariants. Each is a type of causes; the wording of each is one function. Some
were caused by another error themselves, and then the words of that one are kept beside their own.
-/

namespace MinedChain

/-- Why a configuration is refused. -/
inductive ConfigError where
  | difficultyTooHigh (difficulty : UInt32)
  /-- The identifier, as it was written, names no built-in algorithm. -/
  | unknownAlgorithm (id : String)
  /-- The configured identifier does not name the hasher that was provided. -/
  | algorithmMismatch (configured provided : String)
  /-- The text is refused, and this is what is said about it. -/
  | invalidJson (fault : Json.Fault) (words : String)
deriving DecidableEq, Repr

namespace ConfigError

def message : ConfigError → String
  | difficultyTooHigh d =>
    "difficulty " ++ Decimal.text d.toNat ++ " exceeds the " ++ Decimal.text digestBits
      ++ "-bit digest width"
  | unknownAlgorithm id => "unknown hash algorithm: " ++ id
  | algorithmMismatch configured provided =>
    "configured hash algorithm " ++ configured ++ " does not match the provided hasher " ++ provided
  | invalidJson _ words => "invalid configuration json: " ++ words

/-- The words of the error behind this one. -/
def source? : ConfigError → Option String
  | invalidJson _ words => some words
  | _ => none

end ConfigError

/-- Why a block was not mined. -/
inductive MiningError where
  /-- The search ended after this many attempts without a hit. -/
  | exhausted (attempts : UInt64)
deriving DecidableEq, Repr

namespace MiningError

def message : MiningError → String
  | exhausted attempts =>
    "no nonce satisfied the difficulty after " ++ Decimal.text attempts.toNat ++ " attempts"

end MiningError

/-- Why a chain was not made or not extended. -/
inductive ChainError where
  | config (cause : ConfigError)
  | mining (cause : MiningError)
  | emptyChain
  /-- The tip has the greatest index there is. -/
  | indexOverflow (tip : UInt64)
deriving DecidableEq, Repr

namespace ChainError

def message : ChainError → String
  | config cause => cause.message
  | mining cause => cause.message
  | emptyChain => "a chain needs at least a genesis block"
  | indexOverflow tip => "tip index " ++ Decimal.text tip.toNat ++ " has no successor"

/-- The words of the error behind this one; causes that are passed on as they are have their own. -/
def source? : ChainError → Option String
  | config cause => cause.source?
  | _ => none

end ChainError

/-- The invariant that a block breaks. -/
inductive ViolationKind where
  /-- Block 0 is not the configured genesis block. -/
  | genesisMismatch
  /-- The index differs from the position. -/
  | indexMismatch
  /-- The previous digest differs from the digest of the block before. -/
  | brokenLink
  /-- The stored digest differs from the computed one. -/
  | digestMismatch
  /-- The stored digest does not meet the difficulty. -/
  | insufficientWork
deriving DecidableEq, Repr

namespace ViolationKind

def message : ViolationKind → String
  | genesisMismatch => "genesis mismatch"
  | indexMismatch => "index mismatch"
  | brokenLink => "broken link"
  | digestMismatch => "digest mismatch"
  | insufficientWork => "insufficient work"

end ViolationKind

/-- A broken invariant and the position of the block that breaks it. -/
structure Violation where
  index : UInt64
  kind : ViolationKind
deriving DecidableEq, Repr

namespace Violation

def message (v : Violation) : String :=
  "integrity violation at block " ++ Decimal.text v.index.toNat ++ ": " ++ v.kind.message

end Violation

end MinedChain
