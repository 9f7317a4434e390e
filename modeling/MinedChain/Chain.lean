import MinedChain.Clock
import MinedChain.Rules.Verdict
import MinedChain.Stateful

/-!
# Chains

A chain is a list of blocks under rules, and never empty. It is made by mining a genesis block, or
wrapped around blocks that came from elsewhere, which are not looked at. After that it is changed in
place: a block is mined on top of the tip and put behind it.
-/

namespace MinedChain

/-- Blocks under rules. -/
structure Chain where
  rules : Rules
  blocks : List Block
  blocks_ne_nil : blocks ≠ []

namespace Chain

/-! ## Making a chain -/

/-- The chain of one block. -/
def single (r : Rules) (genesis : Block) : Chain := ⟨r, [genesis], List.cons_ne_nil _ _⟩

/-- A chain of a freshly mined genesis block. -/
def ofRules (r : Rules) : Traced MiningError Chain := do
  let genesis ← r.mineContents r.genesisContents
  Traced.emit (.genesisCreated genesis.digest)
  return single r genesis

/-- A new chain under the given settings and hasher. -/
def create (config : Config) (hasher : Hasher) : Traced ChainError Chain :=
  match Rules.of config hasher with
  | .error e => ⟨.error (.config e), []⟩
  | .ok r => (ofRules r).mapError .mining

/-- A new chain with the built-in algorithm that the settings name. -/
def ofConfig (config : Config) : Traced ChainError Chain :=
  match config.algorithm with
  | .error e => ⟨.error (.config e), []⟩
  | .ok a => create config a.hasher

/-- A chain of blocks from elsewhere. -/
def ofBlocks (config : Config) (hasher : Hasher) (blocks : List Block) : Except ChainError Chain :=
  match Rules.of config hasher with
  | .error e => .error (.config e)
  | .ok r => if h : blocks = [] then .error .emptyChain else .ok ⟨r, blocks, h⟩

/-! ## Looking at a chain -/

/-- The first block. -/
def genesis (c : Chain) : Block := c.blocks.head c.blocks_ne_nil

/-- The last block. -/
def tip (c : Chain) : Block := c.blocks.getLast c.blocks_ne_nil

/-- The number of blocks. -/
def length (c : Chain) : Nat := c.blocks.length

/-- The block at a position. -/
def get? (c : Chain) (position : Nat) : Option Block := c.blocks[position]?

/-- The verdict on the chain's blocks under its rules. -/
def validate (c : Chain) : Traced Violation Unit := c.rules.verdict c.blocks

theorem length_pos (c : Chain) : 0 < c.length := List.length_pos_iff.mpr c.blocks_ne_nil

theorem getLast?_blocks (c : Chain) : c.blocks.getLast? = some c.tip :=
  List.getLast?_eq_some_getLast c.blocks_ne_nil

theorem dropLast_concat_tip (c : Chain) : c.blocks.dropLast ++ [c.tip] = c.blocks :=
  List.dropLast_concat_getLast c.blocks_ne_nil

/-- The tip is the block at the last position. -/
theorem getElem?_tip (c : Chain) : c.blocks[c.length - 1]? = some c.tip := by
  rw [length, ← List.getLast?_eq_getElem?, getLast?_blocks]

/-! ## Growing -/

/-- The chain with one more block. -/
def push (c : Chain) (b : Block) : Chain :=
  ⟨c.rules, c.blocks ++ [b], List.append_ne_nil_of_right_ne_nil _ (List.cons_ne_nil _ _)⟩

/-- The contents of the next block: it comes after the tip in index, is linked to it, and is not
older than it. -/
def nextContents (c : Chain) (payload : Bytes) (timestamp : UInt64) : Contents where
  index := c.tip.index + 1
  timestamp := max timestamp c.tip.timestamp
  payload
  previousDigest := c.tip.digest

/-- Mines a payload on top of the tip, puts the block behind it and gives the new tip. A tip of the
greatest index has no successor. -/
def appendAt (payload : Bytes) (timestamp : UInt64) : Stateful Chain ChainError Block := do
  let c ← .get
  if c.tip.index = maxWord then
    .ofResult (.error (.indexOverflow c.tip.index))
  else
    let b ← .ofTraced ((c.rules.mineContents (c.nextContents payload timestamp)).mapError .mining)
    .modify (·.push b)
    let grown ← .get
    return grown.tip

/-- Mines a payload stamped with a clock reading in seconds since the epoch. -/
def append (payload : Bytes) (now : Int) : Stateful Chain ChainError Block :=
  appendAt payload (stampOf now)

@[simp] theorem blocks_push (c : Chain) (b : Block) : (c.push b).blocks = c.blocks ++ [b] := rfl

@[simp] theorem rules_push (c : Chain) (b : Block) : (c.push b).rules = c.rules := rfl

@[simp] theorem tip_push (c : Chain) (b : Block) : (c.push b).tip = b := by
  simp [tip, push]

@[simp] theorem length_push (c : Chain) (b : Block) : (c.push b).length = c.length + 1 := by
  rw [length, blocks_push, List.length_append]
  rfl

end Chain

end MinedChain
