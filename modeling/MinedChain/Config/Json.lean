import MinedChain.Config
import MinedChain.Json.Printer
import MinedChain.Json.Record

/-!
# Configuration as JSON

All five settings are written, in the order of the structure. When a text is read, settings that it
leaves out keep their usual values. The difficulty is checked once the whole text has been accepted;
the identifier of the algorithm is not, since it may name a hasher that is provided later.
-/

namespace MinedChain.Config

/-- The settings as an object. -/
def toJson (c : Config) : Json.Value :=
  .obj [
    ("difficulty", .num c.difficulty.toNat),
    ("genesis_payload", .str c.genesisPayload),
    ("hash_algorithm", .str c.hashAlgorithm),
    ("max_attempts", match c.maxAttempts with | some n => .num n.toNat | none => .null),
    ("parallel_mining", .bool c.parallelMining)]

/-- The settings as compact text. -/
def toText (c : Config) : String := String.ofList c.toJson.compact

/-- The settings as a record whose members may all be left out. -/
def record : Json.Record Config Config where
  members := [
    .of "difficulty" Json.word32 fun d c => { c with difficulty := d },
    .of "genesis_payload" Json.string fun s c => { c with genesisPayload := s },
    .of "hash_algorithm" Json.string fun s c => { c with hashAlgorithm := s },
    .of "max_attempts" (Json.optional Json.word64) fun n c => { c with maxAttempts := n },
    .of "parallel_mining" Json.boolean fun b c => { c with parallelMining := b }]
  start := default
  complete := some

/-- The settings that a text gives, with their difficulty checked. -/
def ofText (wording : Json.Wording) (text : String) : Except ConfigError Config :=
  match record.read.whole text.toList with
  | .error fault => .error (.invalidJson fault (wording.ofText fault text))
  | .ok c => do
    let _ ← c.work
    return c

end MinedChain.Config
