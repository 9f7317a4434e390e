import MinedChain.Config
import MinedChain.Text.Utf8
import MinedChain.Work.Range
import MinedChain.Work.Sequential

/-!
# Rules

Settings and a hasher that have been accepted together are the rules of a chain: by them its blocks
are mined, and by them they are checked.
-/

namespace MinedChain

/-- The time of every genesis block. -/
def genesisTimestamp : UInt64 := 0

/-- The previous digest of every genesis block. -/
def genesisPreviousDigest : Digest := Digest.zero

/-- A hasher, settings that name it, and the work that they make. -/
structure Rules where
  hasher : Hasher
  config : Config
  work : Work
  accepted : config.workFor hasher = .ok work

namespace Rules

/-- The rules that settings and a hasher make, if they are accepted. -/
def of (config : Config) (hasher : Hasher) : Except ConfigError Rules :=
  match h : config.workFor hasher with
  | .ok work => .ok ⟨hasher, config, work, h⟩
  | .error e => .error e

theorem of_eq_ok {config : Config} {hasher : Hasher} {r : Rules} (h : of config hasher = .ok r) :
    r.config = config ∧ r.hasher = hasher := by
  unfold of at h
  split at h
  next => injection h with h; subst h; exact ⟨rfl, rfl⟩
  next => contradiction

theorem of_eq_error_iff {config : Config} {hasher : Hasher} {e : ConfigError} :
    of config hasher = .error e ↔ config.workFor hasher = .error e := by
  unfold of
  split
  next h => exact ⟨fun h' => (nomatch h'), fun h' => (nomatch h.symm.trans h')⟩
  next h =>
    rw [h]
    exact ⟨fun h' => by injection h' with h'; rw [h'], fun h' => by injection h' with h'; rw [h']⟩

/-- The contents of the genesis block. -/
def genesisContents (r : Rules) : Contents where
  index := 0
  timestamp := genesisTimestamp
  payload := Utf8.encode r.config.genesisPayload
  previousDigest := genesisPreviousDigest

/-- Mines a block by the search that the settings choose. -/
def mine (r : Rules) (u : UnsealedBlock) : Traced MiningError Block :=
  if r.config.parallelMining then r.work.mineRange r.hasher u else r.work.mine r.hasher u

/-- Mines the contents from nonce zero. -/
def mineContents (r : Rules) (c : Contents) : Traced MiningError Block :=
  r.mine (UnsealedBlock.ofContents c r.hasher)

end Rules

end MinedChain
