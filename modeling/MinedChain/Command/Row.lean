import MinedChain.Block
import MinedChain.Json.Printer
import MinedChain.Text.Utf8

/-!
# Rows

Blocks as they are shown to people: digests in hexadecimal, payloads as text.
-/

namespace MinedChain.Command

/-- What is shown of a block. -/
structure Row where
  index : UInt64
  timestamp : UInt64
  nonce : UInt64
  hash : String
  previousHash : String
  payload : String
deriving DecidableEq

namespace Row

/-- The row of a block. Octets of the payload that are no text are shown as replacement characters. -/
def ofBlock (b : Block) : Row where
  index := b.index
  timestamp := b.timestamp
  nonce := b.nonce
  hash := b.digest.toHex
  previousHash := b.previousDigest.toHex
  payload := Utf8.decodeLenient b.payload

/-- The row as an object. -/
def toJson (r : Row) : Json.Value :=
  .obj [
    ("index", .num r.index.toNat),
    ("timestamp", .num r.timestamp.toNat),
    ("nonce", .num r.nonce.toNat),
    ("hash", .str r.hash),
    ("previous_hash", .str r.previousHash),
    ("payload", .str r.payload)]

/-- The rows of blocks, indented, and the end of a line. -/
def table (bs : List Block) : List Char :=
  (Json.Value.arr (bs.map fun b => (ofBlock b).toJson)).indented 0 ++ ['\n']

end Row

end MinedChain.Command
