import MinedChain.Block
import MinedChain.Json.Printer
import MinedChain.Json.Record

/-!
# Blocks as JSON

A block is an object of six members; payload and digests are arrays of octets. A block can be read
from a text at once, or taken from a tree of values, and a list of blocks likewise.
-/

namespace MinedChain

namespace Json.Value

/-- The octets as numbers. -/
def ofBytes (bs : Bytes) : Value := .arr (bs.map fun b => .num b.toNat)

/-- A number below `limit`. -/
def below? (limit : Nat) (v : Value) : Option Nat := do
  let n ← v.num?
  if n < limit then some n else none

/-- The octets that an array of numbers holds. -/
def bytes? (v : Value) : Option Bytes := do
  let items ← v.items?
  items.mapM fun item => (item.below? UInt8.size).map UInt8.ofNat

/-- The word that a number holds. -/
def word64? (v : Value) : Option UInt64 := (v.below? UInt64.size).map UInt64.ofNat

/-- The digest that an array of numbers holds. -/
def digest? (v : Value) : Option Digest := v.bytes?.bind Digest.ofBytes?

end Json.Value

namespace Json

/-- A digest: an array of as many octets as a digest has. -/
def digest : Reader Digest := fun text =>
  (arrayExactly octet digestSize text).map (Read.map fun l => ⟨l.1, l.2⟩)

end Json

namespace Block

/-! ## Writing -/

/-- The block as an object. -/
def toJson (b : Block) : Json.Value :=
  .obj [
    ("index", .num b.index.toNat),
    ("timestamp", .num b.timestamp.toNat),
    ("payload", .ofBytes b.payload),
    ("previous_digest", .ofBytes b.previousDigest.bytes),
    ("nonce", .num b.nonce.toNat),
    ("digest", .ofBytes b.digest.bytes)]

/-- The blocks as an array. -/
def listToJson (bs : List Block) : Json.Value := .arr (bs.map toJson)

/-- The block as compact text. -/
def toText (b : Block) : String := String.ofList b.toJson.compact

/-- The blocks as compact text. -/
def listToText (bs : List Block) : String := String.ofList (listToJson bs).compact

/-! ## Taking from a tree -/

/-- The block that an object holds. -/
def ofJson? (v : Json.Value) : Option Block := do
  let index ← (← v.member? "index").word64?
  let timestamp ← (← v.member? "timestamp").word64?
  let payload ← (← v.member? "payload").bytes?
  let previousDigest ← (← v.member? "previous_digest").digest?
  let nonce ← (← v.member? "nonce").word64?
  let digest ← (← v.member? "digest").digest?
  return { index, timestamp, payload, previousDigest, nonce, digest }

/-- The blocks that an array holds. -/
def listOfJson? (v : Json.Value) : Option (List Block) := do
  let items ← v.items?
  items.mapM ofJson?

/-! ## Reading -/

/-- What has been read of a block so far. -/
structure Draft where
  index : Option UInt64 := none
  timestamp : Option UInt64 := none
  payload : Option Bytes := none
  previousDigest : Option Digest := none
  nonce : Option UInt64 := none
  digest : Option Digest := none

/-- The block, if nothing is missing. -/
def Draft.block? (d : Draft) : Option Block := do
  let index ← d.index
  let timestamp ← d.timestamp
  let payload ← d.payload
  let previousDigest ← d.previousDigest
  let nonce ← d.nonce
  let digest ← d.digest
  return { index, timestamp, payload, previousDigest, nonce, digest }

/-- A block as a record of which no member may be left out. -/
def record : Json.Record Draft Block where
  members := [
    .of "index" Json.word64 fun w d => { d with index := some w },
    .of "timestamp" Json.word64 fun w d => { d with timestamp := some w },
    .of "payload" (Json.array Json.octet) fun bs d => { d with payload := some bs },
    .of "previous_digest" Json.digest fun x d => { d with previousDigest := some x },
    .of "nonce" Json.word64 fun w d => { d with nonce := some w },
    .of "digest" Json.digest fun x d => { d with digest := some x }]
  start := {}
  complete := Draft.block?

/-- The block that a text gives. -/
def ofText (text : String) : Except Json.Fault Block := record.read.whole text.toList

/-- The blocks that a text gives. -/
def listOfText (text : String) : Except Json.Fault (List Block) :=
  (Json.array record.read).whole text.toList

end Block

end MinedChain
