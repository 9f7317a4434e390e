import MinedChain.Hasher.Algorithm
import MinedChain.Work

/-!
# Configuration

What a chain may be tuned by. The algorithm is named by an identifier: that of a built-in algorithm,
in any spelling and case, or, up to case, that of a hasher that is provided. An identifier that names
a built-in algorithm names no other hasher, and the provided hasher must then have the algorithm's own
identifier, letter for letter.
-/

namespace MinedChain

/-- The tunable settings of a chain, with the values they have unless something else is said. -/
structure Config where
  /-- The zero bits that every digest begins with. -/
  difficulty : UInt32 := 16
  genesisPayload : String := "Genesis Block"
  /-- The identifier of the hash algorithm. -/
  hashAlgorithm : String := "sha256"
  /-- The ceiling on attempts for each block. -/
  maxAttempts : Option UInt64 := none
  /-- Whether blocks are mined by the search over a range. -/
  parallelMining : Bool := false
deriving DecidableEq, Repr

namespace Config

/-- The settings with nothing said. -/
def default : Config := {}

instance : Inhabited Config := ⟨default⟩

/-- The built-in algorithm that the identifier names. -/
def algorithm (c : Config) : Except ConfigError Algorithm :=
  match Algorithm.ofId? c.hashAlgorithm with
  | some a => .ok a
  | none => .error (.unknownAlgorithm c.hashAlgorithm)

/-- The work that the difficulty and the ceiling make. -/
def work (c : Config) : Except ConfigError Work := Work.ofDifficulty c.difficulty c.maxAttempts

/-- Checks the difficulty, then that the identifier names a built-in algorithm. -/
def validate (c : Config) : Except ConfigError Unit := do
  let _ ← c.work
  let _ ← c.algorithm

/-- The identifier names a hasher of this identifier. -/
def Names (c : Config) (id : String) : Prop :=
  match Algorithm.ofId? c.hashAlgorithm with
  | some a => a.id = id
  | none => foldCase c.hashAlgorithm = foldCase id

instance (c : Config) (id : String) : Decidable (c.Names id) := by
  unfold Names
  split <;> infer_instance

/-- Checks the difficulty, then that the identifier names the hasher. -/
def validateFor (c : Config) (hasher : Hasher) : Except ConfigError Unit := do
  let _ ← c.work
  if c.Names hasher.id then .ok ()
  else .error (.algorithmMismatch c.hashAlgorithm hasher.id)

/-- The work, once the settings have been checked against the hasher. -/
def workFor (c : Config) (hasher : Hasher) : Except ConfigError Work := do
  c.validateFor hasher
  c.work

end Config

end MinedChain
