import MinedChain.Edit
import MinedChain.Proofs.Rearrangement
import MinedChain.Proofs.Replacement

/-!
# One changed field

A field of a block in a valid list that is set to another value, with nothing recomputed, fails a check
at the block's own position or is not noticed at all. Most fields are looked at by a check of their own,
which fails for every change. The nonce, and behind the genesis block the time and the payload, are held
by the digest only: a change of them is noticed unless the hasher gives both encodings one digest.
-/

namespace MinedChain

namespace FieldValue

/-- The check at a position that every change of the field fails first. A field without such a check is
looked at by the digest alone. -/
def exposedBy? (position : Nat) : FieldValue → Option ViolationKind
  | index _ => some (if position = 0 then .genesisMismatch else .indexMismatch)
  | timestamp _ => if position = 0 then some .genesisMismatch else none
  | payload _ => if position = 0 then some .genesisMismatch else none
  | previousDigest _ => some (if position = 0 then .genesisMismatch else .brokenLink)
  | nonce _ => none
  | digest _ => some .digestMismatch

variable {position : Nat} {v : FieldValue}

/-- The stored digest is not one of the fields that are looked at by the digest alone. -/
theorem digest_store_of_exposedBy?_eq_none (h : v.exposedBy? position = none) (b : Block) :
    (v.store b).digest = b.digest := by
  cases v with
  | digest d => exact nomatch h
  | _ => rfl

/-- The fields that make up the identity of a genesis block are its contents. -/
theorem toContents_store_ne {b : Block} (h : v.exposedBy? 0 = some .genesisMismatch)
    (hne : v.store b ≠ b) : (v.store b).toContents ≠ b.toContents := by
  intro hcontents
  apply hne
  cases v with
  | nonce w => exact nomatch h
  | digest d => exact nomatch h
  | _ => exact Block.eq_of_toContents_eq hcontents rfl rfl

end FieldValue

namespace Rules

variable {r : Rules} {bs : List Block} {b b' : Block} {i : Nat} {position : UInt64}
  {predecessor : Option Block} {v : FieldValue}

/-! ## The checks on a changed block -/

/-- What the check of the digest says, if it is the only one left. -/
def digestDefect? (r : Rules) (b : Block) : Option ViolationKind :=
  if b.computeDigest r.hasher = b.digest then none else some .digestMismatch

theorem defect?_of_linkDefect?_eq_some {kind : ViolationKind}
    (h : r.linkDefect? predecessor b = some kind) : r.defect? position predecessor b = some kind := by
  rw [defect?, h]

/-- The link or the identity of a block is that of its contents. -/
theorem linkDefect?_congr_toContents (h : b'.toContents = b.toContents) (predecessor : Option Block) :
    r.linkDefect? predecessor b' = r.linkDefect? predecessor b := by
  cases predecessor with
  | none =>
    have hgenesis : r.IsGenesis b' ↔ r.IsGenesis b := by rw [IsGenesis, IsGenesis, h]
    simp only [linkDefect?, hgenesis]
  | some p => simp only [linkDefect?, h]

theorem defect?_of_computeDigest_ne (hlink : r.linkDefect? predecessor b = none)
    (hindex : b.index = position) (hdigest : b.computeDigest r.hasher ≠ b.digest) :
    r.defect? position predecessor b = some .digestMismatch := by
  simp [defect?, hlink, hindex, hdigest]

/-- Of a block that is linked, numbered and of enough work, the digest is left to check. -/
theorem defect?_of_linked (hlink : r.linkDefect? predecessor b = none) (hindex : b.index = position)
    (hmeets : b.digest.Meets r.work.difficulty) :
    r.defect? position predecessor b = r.digestDefect? b := by
  rw [digestDefect?]
  by_cases hdigest : b.computeDigest r.hasher = b.digest
  · simp [defect?, hlink, hindex, hdigest, hmeets]
  · rw [defect?_of_computeDigest_ne hlink hindex hdigest, if_neg hdigest]

/-! ## Changes of a block that fits -/

/-- A first block of other contents than the genesis block is not the genesis block. -/
theorem Fits.defect?_of_toContents_ne (h : r.Fits position none b)
    (hne : b'.toContents ≠ b.toContents) : r.defect? position none b' = some .genesisMismatch := by
  have hgenesis : b.toContents = r.genesisContents := linkDefect?_none_eq_none_iff.mp h.link
  apply defect?_of_linkDefect?_eq_some
  rw [linkDefect?, if_neg]
  rw [IsGenesis, ← hgenesis]
  exact hne

/-- Another nonce is looked at by the digest alone. -/
theorem Fits.defect?_store_nonce (h : r.Fits position predecessor b) (w : UInt64) :
    r.defect? position predecessor ((FieldValue.nonce w).store b) =
      r.digestDefect? ((FieldValue.nonce w).store b) :=
  defect?_of_linked ((linkDefect?_congr_toContents rfl predecessor).trans h.link) h.index h.meets

/-- Another digest than the stored one is not that of the contents and the nonce. -/
theorem Fits.defect?_store_digest (h : r.Fits position predecessor b) {d : Digest}
    (hne : (FieldValue.digest d).store b ≠ b) :
    r.defect? position predecessor ((FieldValue.digest d).store b) = some .digestMismatch := by
  refine defect?_of_computeDigest_ne ?_ h.index ?_
  · exact (linkDefect?_congr_toContents rfl predecessor).trans h.link
  · intro hdigest
    obtain rfl : b.digest = d := h.digest.symm.trans hdigest
    exact hne rfl

/-- One changed field of a genesis block. -/
theorem Fits.defect?_store_none (h : r.Fits position none b) (hne : v.store b ≠ b) :
    r.defect? position none (v.store b) =
      (v.exposedBy? 0).or (r.digestDefect? (v.store b)) := by
  cases v with
  | nonce w => exact h.defect?_store_nonce w
  | digest d => exact h.defect?_store_digest hne
  | _ => exact h.defect?_of_toContents_ne (FieldValue.toContents_store_ne rfl hne)

/-- One changed field of a block with a predecessor. -/
theorem Fits.defect?_store_some {p : Block} (h : r.Fits position (some p) b) (hne : v.store b ≠ b)
    (i : Nat) :
    r.defect? position (some p) (v.store b) =
      (v.exposedBy? (i + 1)).or (r.digestDefect? (v.store b)) := by
  cases v with
  | index w =>
    have hlink : r.linkDefect? (some p) ((FieldValue.index w).store b) = none := h.link
    have hindex : w ≠ position := by
      rintro rfl
      exact hne (by rw [FieldValue.store, ← h.index])
    rw [defect?_of_index_ne hindex, hlink]
    rfl
  | timestamp w => exact defect?_of_linked h.link h.index h.meets
  | payload bs => exact defect?_of_linked h.link h.index h.meets
  | previousDigest d =>
    have hlink : b.previousDigest = p.digest := linkDefect?_some_eq_none_iff.mp h.link
    have hbroken : d ≠ p.digest := by
      rintro rfl
      exact hne (by rw [FieldValue.store, ← hlink])
    apply defect?_of_linkDefect?_eq_some
    exact if_neg hbroken
  | nonce w => exact h.defect?_store_nonce w
  | digest d => exact h.defect?_store_digest hne

/-- One changed field of a block of a valid list. -/
theorem Valid.defect?_store (h : r.Valid bs) (hb : bs[i]? = some b) (hne : v.store b ≠ b) :
    r.defect? (UInt64.ofNat i) (before? none bs i) (v.store b) =
      (v.exposedBy? i).or (r.digestDefect? (v.store b)) := by
  have hfits := h.fits hb
  cases i with
  | zero => exact hfits.defect?_store_none hne
  | succ i =>
    have hi : i < bs.length := Nat.lt_of_succ_lt (List.getElem?_eq_some_iff.mp hb).1
    have hp : before? none bs (i + 1) = some bs[i] := List.getElem?_eq_getElem hi
    rw [hp] at hfits ⊢
    exact hfits.defect?_store_some hne i

/-- The check of the field is the first to fail, or else the digest is all that is judged. -/
theorem Valid.firstViolation?_store (h : r.Valid bs) (hb : bs[i]? = some b) (hne : v.store b ≠ b) :
    r.firstViolation? 0 none (bs.set i (v.store b)) =
      ((v.exposedBy? i).or (r.digestDefect? (v.store b))).map (Violation.mk (UInt64.ofNat i)) := by
  rw [h.firstViolation?_set hb, h.defect?_store hb hne]
  cases hexposed : v.exposedBy? i with
  | some kind => rfl
  | none =>
    -- the stored digest is the old one, so the link of the next block still holds
    rw [v.digest_store_of_exposedBy?_eq_none hexposed]
    simp

end Rules

namespace Chain

/-- Storing a value into a field of a block puts the changed block in its place. -/
theorem result_rebuild_store {c : Chain} {i : Nat} {b : Block} (hb : c.blocks[i]? = some b)
    (v : FieldValue) (config : Config) (hasher : Hasher) :
    (c.rebuild config hasher [.store i v]).result =
      ofBlocks config hasher (c.blocks.set i (v.store b)) := by
  obtain ⟨hi, rfl⟩ := List.getElem?_eq_some_iff.mp hb
  have hmodify : c.blocks.modify i (v.store ·) = c.blocks.set i (v.store c.blocks[i]) := by
    rw [List.modify_eq_take_cons_drop hi, List.set_eq_take_append_cons_drop, if_pos hi]
  rw [← hmodify]
  rfl

/-- One field of a block of a valid chain, changed with nothing recomputed, is judged at the block's own
position. If a check looks at the field, that check is reported. If only the digest does, the verdict
turns on whether the changed block still has the digest that is stored. It has only if the old and the
new encoding are different and of one digest, and then the chain is valid. -/
theorem changed_field_judged {c : Chain} {i : Nat} {b : Block} (v : FieldValue)
    (hvalid : c.validate.result = .ok ()) (hb : c.blocks[i]? = some b) (hchanged : v.store b ≠ b) :
    ∃ c', (c.rebuild c.rules.config c.rules.hasher [.store i v]).result = .ok c' ∧
      (∀ kind, v.exposedBy? i = some kind →
        c'.validate.result = .error ⟨UInt64.ofNat i, kind⟩) ∧
      (v.exposedBy? i = none →
        c'.validate.result =
          if (v.store b).computeDigest c.rules.hasher ≠ b.digest
          then .error ⟨UInt64.ofNat i, .digestMismatch⟩ else .ok ()) ∧
      (c'.validate.result = .ok () →
        (v.store b).encode ≠ b.encode ∧
          c.rules.hasher.digest (v.store b).encode = c.rules.hasher.digest b.encode) := by
  have h : c.rules.Valid c.blocks := result_validate_eq_ok_iff.mp hvalid
  have hne : c.blocks.set i (v.store b) ≠ [] := by
    simp [c.blocks_ne_nil]
  have hfirst := h.firstViolation?_store hb hchanged
  refine ⟨⟨c.rules, _, hne⟩, ?_, ?_, ?_, ?_⟩
  · rw [result_rebuild_store hb]
    exact ofBlocks_rules c.rules hne
  · intro kind hexposed
    rw [hexposed] at hfirst
    exact result_validate_eq_error_iff.mpr hfirst
  · intro hexposed
    rw [hexposed, Rules.digestDefect?, v.digest_store_of_exposedBy?_eq_none hexposed] at hfirst
    by_cases hdigest : (v.store b).computeDigest c.rules.hasher = b.digest
    · rw [if_neg (not_not.mpr hdigest)]
      rw [if_pos hdigest] at hfirst
      exact result_validate_eq_ok_iff.mpr hfirst
    · rw [if_pos hdigest]
      rw [if_neg hdigest] at hfirst
      exact result_validate_eq_error_iff.mpr hfirst
  · intro hok
    have hvalid' : c.rules.Valid (c.blocks.set i (v.store b)) := result_validate_eq_ok_iff.mp hok
    obtain ⟨hfits, -⟩ := (h.set_iff hb (v.store b)).mp hvalid'
    cases hexposed : v.exposedBy? i with
    | some kind =>
      rw [hexposed] at hfirst
      exact nomatch hfirst.symm.trans hvalid'
    | none =>
      have hsame := v.digest_store_of_exposedBy?_eq_none hexposed b
      rcases Block.eq_or_collision_of_digest_eq hfits.digest (h.fits hb).digest hsame with
        heq | hcollision
      · exact absurd heq hchanged
      · exact hcollision

/-- Under a hasher of the nonce, a changed time goes unnoticed and a changed nonce does not. -/
theorem changed_time_and_nonce_judged :
    let r := Rules.nonceTwo
    let b' := (FieldValue.timestamp 9).store (nonceTwo 1).tip
    (∃ c', ((nonceTwo 2).rebuild r.config r.hasher [.store 1 (.timestamp 9)]).result = .ok c' ∧
      c'.validate.result = .ok () ∧ b'.encode ≠ (nonceTwo 1).tip.encode ∧
      r.hasher.digest b'.encode = r.hasher.digest (nonceTwo 1).tip.encode) ∧
    (∃ c', ((nonceTwo 2).rebuild r.config r.hasher [.store 1 (.nonce 3)]).result = .ok c' ∧
      c'.validate.result = .error ⟨1, .digestMismatch⟩) := by
  intro r b'
  have hvalid : (nonceTwo 2).validate.result = .ok () := by rfl
  have hb : (nonceTwo 2).blocks[1]? = some (nonceTwo 1).tip := rfl
  obtain ⟨c', hbuilt, -, hjudged, hcollision⟩ :=
    changed_field_judged (.timestamp 9) hvalid hb (by decide)
  have hok : c'.validate.result = .ok () := (hjudged rfl).trans (if_neg (by decide))
  -- the digest of a block with nonce three is the other one
  obtain ⟨c'', hbuilt', -, hjudged', -⟩ :=
    changed_field_judged (.nonce 3) hvalid hb (by decide)
  have hreported : c''.validate.result = .error ⟨1, .digestMismatch⟩ :=
    (hjudged' rfl).trans (if_pos (by decide))
  exact ⟨⟨c', hbuilt, hok, hcollision hok⟩, c'', hbuilt', hreported⟩

end Chain

end MinedChain
