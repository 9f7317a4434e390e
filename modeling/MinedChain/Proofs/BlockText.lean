import MinedChain.Block.Json
import MinedChain.Proofs.Json.Records
import MinedChain.Proofs.SearchChoice

/-!
# Blocks in JSON

A list of blocks can be written as text and read again, or taken from the tree of values that stands for
it, and either way it is the same list. Nothing is asked of the blocks. So a chain that is written and
wrapped again under its own settings and hasher is the chain that was written.
-/

namespace MinedChain

namespace Json

/-! ## Octets and digests -/

theorem listed_ofBytes (bs : Bytes) :
    Listed (bs.map fun b => Decimal.encode b.toNat)
      (Value.compactItems (bs.map fun b => .num b.toNat)) := by
  have h := Value.listed_compactItems (bs.map fun b => .num b.toNat)
  rwa [List.map_map] at h

theorem reads_bytes (bs : Bytes) : Reads (array octet) bs (Value.ofBytes bs).compact :=
  reads_array (fun _ _ => reads_octet (isNumeral_encode _)) (listed_ofBytes bs)

theorem reads_digest (d : Digest) : Reads digest d (Value.ofBytes d.bytes).compact :=
  (reads_arrayExactly (fun _ _ => reads_octet (isNumeral_encode _)) (listed_ofBytes d.bytes)
    d.length_bytes).map fun l : { l : Bytes // l.length = digestSize } => (⟨l.1, l.2⟩ : Digest)

end Json

namespace Block

open Json

/-! ## Reading what was written -/

/-- The entries in which a block is written. -/
def entries (b : Block) : List (Entry Draft) := [
  .written [] "index" (fun d => { d with index := some b.index })
    (Value.num b.index.toNat).compact,
  .written [] "timestamp" (fun d => { d with timestamp := some b.timestamp })
    (Value.num b.timestamp.toNat).compact,
  .written [] "payload" (fun d => { d with payload := some b.payload })
    (Value.ofBytes b.payload).compact,
  .written [] "previous_digest" (fun d => { d with previousDigest := some b.previousDigest })
    (Value.ofBytes b.previousDigest.bytes).compact,
  .written [] "nonce" (fun d => { d with nonce := some b.nonce })
    (Value.num b.nonce.toNat).compact,
  .written [] "digest" (fun d => { d with digest := some b.digest })
    (Value.ofBytes b.digest.bytes).compact]

theorem understands_entries (b : Block) : ∀ e ∈ b.entries, record.Understands e := by
  have hword (w : UInt64) : Reads word64 w (Value.num w.toNat).compact :=
    reads_word64 (isNumeral_encode _)
  simp only [entries, List.forall_mem_cons]
  refine ⟨?_, ?_, ?_, ?_, ?_, ?_, fun _ h => nomatch h⟩
  · exact Record.understands_written blanks_nil rfl (reads_member _ _ (hword b.index))
  · exact Record.understands_written blanks_nil rfl (reads_member _ _ (hword b.timestamp))
  · exact Record.understands_written blanks_nil rfl (reads_member _ _ (reads_bytes b.payload))
  · exact Record.understands_written blanks_nil rfl (reads_member _ _ (reads_digest b.previousDigest))
  · exact Record.understands_written blanks_nil rfl (reads_member _ _ (hword b.nonce))
  · exact Record.understands_written blanks_nil rfl (reads_member _ _ (reads_digest b.digest))

theorem once_entries (b : Block) : record.Once b.entries := by
  refine Record.once_of_nodup ?_
  show ["index", "timestamp", "payload", "previous_digest", "nonce", "digest"].Nodup
  decide

/-- A block is read from its own text. -/
theorem reads_toJson (b : Block) : Reads record.read b b.toJson.compact := by
  have hlisted := Value.listed_compactMembers [
    ("index", .num b.index.toNat),
    ("timestamp", .num b.timestamp.toNat),
    ("payload", .ofBytes b.payload),
    ("previous_digest", .ofBytes b.previousDigest.bytes),
    ("nonce", .num b.nonce.toNat),
    ("digest", .ofBytes b.digest.bytes)]
  exact Record.reads_object b.understands_entries b.once_entries hlisted rfl

/-- Blocks are read from their own text. -/
theorem listOfText_listToText (bs : List Block) : listOfText (listToText bs) = .ok bs := by
  have hlisted := Value.listed_compactItems (bs.map toJson)
  rw [List.map_map] at hlisted
  have hread := reads_array (fun b _ => reads_toJson b) hlisted
  rw [listOfText, listToText, String.toList_ofList]
  exact hread.whole_self

/-! ## Taking from the tree -/

/-- Taking each element of a list back from what it was turned into gives the list. -/
theorem mapM_map_eq_some {α β : Type} {f : α → β} {g : β → Option α} (h : ∀ a, g (f a) = some a)
    (l : List α) : (l.map f).mapM g = some l := by
  induction l with
  | nil => rfl
  | cons a l ih =>
    rw [List.map_cons, List.mapM_cons, h, ih]
    rfl

theorem below?_num {limit n : Nat} (h : n < limit) : (Value.num n).below? limit = some n :=
  if_pos h

theorem word64?_num (w : UInt64) : (Value.num w.toNat).word64? = some w := by
  rw [Value.word64?, below?_num w.toNat_lt, Option.map_some, UInt64.ofNat_toNat]

theorem bytes?_ofBytes (bs : Bytes) : (Value.ofBytes bs).bytes? = some bs := by
  refine mapM_map_eq_some ?_ bs
  intro b
  rw [below?_num b.toNat_lt, Option.map_some, UInt8.ofNat_toNat]

theorem digest?_ofBytes (d : Digest) : (Value.ofBytes d.bytes).digest? = some d := by
  rw [Value.digest?, bytes?_ofBytes]
  exact dif_pos d.length_bytes

/-- A block is taken from its own tree. -/
theorem ofJson?_toJson (b : Block) : ofJson? b.toJson = some b := by
  -- every name is found among the six, so that only the values are left to be taken
  show (do
    let index ← (Value.num b.index.toNat).word64?
    let timestamp ← (Value.num b.timestamp.toNat).word64?
    let payload ← (Value.ofBytes b.payload).bytes?
    let previousDigest ← (Value.ofBytes b.previousDigest.bytes).digest?
    let nonce ← (Value.num b.nonce.toNat).word64?
    let digest ← (Value.ofBytes b.digest.bytes).digest?
    return ({ index, timestamp, payload, previousDigest, nonce, digest } : Block)) = some b
  simp only [word64?_num, bytes?_ofBytes, digest?_ofBytes]
  rfl

/-- Blocks are taken from their own tree. -/
theorem listOfJson?_listToJson (bs : List Block) : listOfJson? (listToJson bs) = some bs :=
  mapM_map_eq_some ofJson?_toJson bs

end Block

namespace Chain

/-- Every list of blocks survives being written as text or as a tree. Every chain survives being written
and wrapped again under its settings and hasher: the blocks are the same, and so are the verdict on them
and all that can be seen of later calls. -/
theorem written_chain_is_same :
    (∀ bs : List Block, Block.listOfText (Block.listToText bs) = .ok bs ∧
      Block.listOfJson? (Block.listToJson bs) = some bs) ∧
    ∀ c : Chain, ∃ bs c', Block.listOfText (Block.listToText c.blocks) = .ok bs ∧
      ofBlocks c.rules.config c.rules.hasher bs = .ok c' ∧ c'.blocks = c.blocks ∧
      c'.validate = c.validate ∧ ∀ qs, c'.transcript qs = c.transcript qs := by
  refine ⟨fun bs => ⟨Block.listOfText_listToText bs, Block.listOfJson?_listToJson bs⟩, ?_⟩
  intro c
  have hwrapped : ofBlocks c.rules.config c.rules.hasher c.blocks = .ok c :=
    ofBlocks_eq_ok_iff.mpr ⟨Rules.of_config_hasher c.rules, rfl⟩
  exact ⟨c.blocks, c, Block.listOfText_listToText c.blocks, hwrapped, rfl, rfl, fun _ => rfl⟩

end Chain

end MinedChain
