import MinedChain.Command.Row
import MinedChain.Proofs.Json.Records

/-!
# Rows in JSON

What is printed for blocks is an array of objects, and the rows can be read from it. Nothing that the
library does reads rows; the reader is the one that any user of the output has.
-/

namespace MinedChain.Command.Row

open Json

/-! ## The reader -/

/-- What has been read of a row so far. -/
structure Draft where
  index : Option UInt64 := none
  timestamp : Option UInt64 := none
  nonce : Option UInt64 := none
  hash : Option String := none
  previousHash : Option String := none
  payload : Option String := none

/-- The row, if nothing is missing. -/
def Draft.row? (d : Draft) : Option Row := do
  let index ← d.index
  let timestamp ← d.timestamp
  let nonce ← d.nonce
  let hash ← d.hash
  let previousHash ← d.previousHash
  let payload ← d.payload
  return { index, timestamp, nonce, hash, previousHash, payload }

/-- A row as a record of which no member may be left out. -/
def record : Record Draft Row where
  members := [
    .of "index" word64 fun w d => { d with index := some w },
    .of "timestamp" word64 fun w d => { d with timestamp := some w },
    .of "nonce" word64 fun w d => { d with nonce := some w },
    .of "hash" string fun s d => { d with hash := some s },
    .of "previous_hash" string fun s d => { d with previousHash := some s },
    .of "payload" string fun s d => { d with payload := some s }]
  start := {}
  complete := Draft.row?

/-- The rows that a text gives. -/
def listOfText (text : String) : Except Fault (List Row) := (array record.read).whole text.toList

/-! ## Reading what was written -/

/-- The entries in which a row is written. -/
def entries (r : Row) : List (Entry Draft) := [
  .written [' '] "index" (fun d => { d with index := some r.index })
    (Decimal.encode r.index.toNat),
  .written [' '] "timestamp" (fun d => { d with timestamp := some r.timestamp })
    (Decimal.encode r.timestamp.toNat),
  .written [' '] "nonce" (fun d => { d with nonce := some r.nonce })
    (Decimal.encode r.nonce.toNat),
  .written [' '] "hash" (fun d => { d with hash := some r.hash }) (quote r.hash),
  .written [' '] "previous_hash" (fun d => { d with previousHash := some r.previousHash })
    (quote r.previousHash),
  .written [' '] "payload" (fun d => { d with payload := some r.payload }) (quote r.payload)]

theorem understands_entries (r : Row) : ∀ e ∈ r.entries, record.Understands e := by
  have hblank : Blanks [' '] := by decide
  have hword (w : UInt64) : Reads word64 w (Decimal.encode w.toNat) :=
    reads_word64 (isNumeral_encode _)
  have hstring (s : String) : Reads string s (quote s) := reads_string (isString_quote s)
  simp only [entries, List.forall_mem_cons]
  refine ⟨?_, ?_, ?_, ?_, ?_, ?_, fun _ h => nomatch h⟩
  · exact Record.understands_written hblank rfl (reads_member _ _ (hword r.index))
  · exact Record.understands_written hblank rfl (reads_member _ _ (hword r.timestamp))
  · exact Record.understands_written hblank rfl (reads_member _ _ (hword r.nonce))
  · exact Record.understands_written hblank rfl (reads_member _ _ (hstring r.hash))
  · exact Record.understands_written hblank rfl (reads_member _ _ (hstring r.previousHash))
  · exact Record.understands_written hblank rfl (reads_member _ _ (hstring r.payload))

theorem once_entries (r : Row) : record.Once r.entries := by
  refine Record.once_of_nodup ?_
  show ["index", "timestamp", "nonce", "hash", "previous_hash", "payload"].Nodup
  decide

/-- A row is read from its own text. -/
theorem reads_toJson (depth : Nat) (r : Row) : Reads record.read r (r.toJson.indented depth) := by
  have hlisted := Value.listed_indentedMembers (depth + 1) (Value.blanks_newline depth)
    ("index", .num r.index.toNat) [
    ("timestamp", .num r.timestamp.toNat),
    ("nonce", .num r.nonce.toNat),
    ("hash", .str r.hash),
    ("previous_hash", .str r.previousHash),
    ("payload", .str r.payload)]
  have hread := Record.reads_object r.understands_entries r.once_entries hlisted rfl
  -- the line end before the closing bracket belongs to the listing
  rw [List.append_assoc] at hread
  exact hread

/-- The rows as an indented array. -/
def listToText (rs : List Row) : String :=
  String.ofList ((Value.arr (rs.map toJson)).indented 0)

/-- Rows are read from their own text. -/
theorem listOfText_listToText (rs : List Row) : listOfText (listToText rs) = .ok rs := by
  obtain ⟨text, htext, hlisted⟩ := Value.exists_listed_indented 0 (rs.map toJson)
  rw [List.map_map] at hlisted
  have hread := reads_array (fun r _ => reads_toJson 1 r) hlisted
  rw [listOfText, listToText, String.toList_ofList, htext]
  exact hread.whole_self

/-- The rows of blocks are printed as an array and the end of a line. -/
theorem table_eq (bs : List Block) :
    String.ofList (table bs) = listToText (bs.map ofBlock) ++ "\n" := by
  rw [table, String.ofList_append, listToText, List.map_map]
  rfl

end MinedChain.Command.Row
