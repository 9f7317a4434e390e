import MinedChain.Error

/-!
# Events

What mining and validation report while they run. An event has a level, a message and named fields;
an operation gives its events beside its result, in the order in which they happened.
-/

namespace MinedChain

/-- How much an event matters. -/
inductive Level where
  | debug
  | info
  | warn
deriving DecidableEq, Repr

namespace Level

def name : Level → String
  | debug => "DEBUG"
  | info => "INFO"
  | warn => "WARN"

end Level

/-- The value of an event's field. -/
inductive Field where
  | number (n : Nat)
  | text (s : String)
  /-- A number that is a mean, and shown as a floating-point number. -/
  | mean (n : Nat)
deriving DecidableEq, Repr

/-- Something that happened. -/
inductive Event where
  /-- The sequential search sealed a block. -/
  | mined (index nonce : UInt64) (digest : Digest) (attempts : UInt64)
  /-- The search over a range sealed a block. -/
  | minedInRange (index nonce : UInt64) (digest : Digest)
  /-- A search has made many times the attempts that its difficulty lets one expect. -/
  | farPastExpectation (index attempts : UInt64) (expected : Nat)
  /-- The sequential search stopped at its ceiling. -/
  | gaveUp (index attempts : UInt64)
  /-- The search over a range found nothing. -/
  | gaveUpRange (index attempts : UInt64)
  | genesisCreated (digest : Digest)
  | chainValidated (blocks : Nat)
  | validationFailed (violation : Violation)
deriving DecidableEq

namespace Event

def level : Event → Level
  | mined .. => .info
  | minedInRange .. => .info
  | farPastExpectation .. => .warn
  | gaveUp .. => .warn
  | gaveUpRange .. => .warn
  | genesisCreated .. => .debug
  | chainValidated .. => .debug
  | validationFailed .. => .warn

/-- The beginning of the messages about a sealed block. -/
def minedMessage (index nonce : UInt64) (digest : Digest) : String :=
  "Mined block " ++ Decimal.text index.toNat ++ " with nonce " ++ Decimal.text nonce.toNat ++ " and hash "
    ++ digest.toHex

def message : Event → String
  | mined index nonce digest attempts =>
    minedMessage index nonce digest ++ " after " ++ Decimal.text attempts.toNat ++ " attempts"
  | minedInRange index nonce digest => minedMessage index nonce digest ++ " (parallel)"
  | farPastExpectation .. =>
    "mining is far past the expected attempt count; check the hash function"
  | gaveUp .. => "mining gave up at the attempt ceiling"
  | gaveUpRange .. => "parallel mining gave up"
  | genesisCreated .. => "genesis block created"
  | chainValidated .. => "chain validated"
  | validationFailed .. => "chain validation failed"

/-- The fields, in the order in which they are shown. -/
def fields : Event → List (String × Field)
  | mined .. => []
  | minedInRange .. => []
  | farPastExpectation index attempts expected =>
    [("index", .number index.toNat), ("attempts", .number attempts.toNat),
      ("expected", .mean expected)]
  | gaveUp index attempts => [("index", .number index.toNat), ("attempts", .number attempts.toNat)]
  | gaveUpRange index attempts =>
    [("index", .number index.toNat), ("attempts", .number attempts.toNat)]
  | genesisCreated digest => [("digest", .text digest.toHex)]
  | chainValidated blocks => [("blocks", .number blocks)]
  | validationFailed violation => [("violation", .text violation.message)]

end Event

end MinedChain
