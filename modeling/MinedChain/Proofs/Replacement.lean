import MinedChain.Proofs.Splicing

/-!
# Another block in place of one

Whatever block is put in place of one of a valid list, two places at most can show it: its own, where it
must pass all checks, and the next, where a block is linked to the digest of the old one. With the old
digest it is not noticed behind its own place. Then it is the old block, or the two have different
encodings of one digest.
-/

namespace MinedChain

namespace Rules

variable {r : Rules} {bs : List Block} {b : Block} {i : Nat}

/-- The new block is judged first, then the link to it, and nothing else. -/
theorem Valid.firstViolation?_set (h : r.Valid bs) (hb : bs[i]? = some b) (b' : Block) :
    r.firstViolation? 0 none (bs.set i b') =
      ((r.defect? (UInt64.ofNat i) (before? none bs i) b').map (Violation.mk (UInt64.ofNat i))).or
        (if i + 1 < bs.length ∧ b'.digest ≠ b.digest
          then some ⟨UInt64.ofNat (i + 1), .brokenLink⟩ else none) := by
  have hi : i < bs.length := (List.getElem?_eq_some_iff.mp hb).1
  rw [List.set_eq_take_append_cons_drop, if_pos hi,
    h.firstViolation?_take_append (Nat.le_of_lt hi), firstViolation?,
    h.firstViolation?_drop_behind hb]
  cases r.defect? (UInt64.ofNat i) (before? none bs i) b' <;> rfl

/-- The new block goes unnoticed exactly if it fits and no block is linked to another digest. -/
theorem Valid.set_iff (h : r.Valid bs) (hb : bs[i]? = some b) (b' : Block) :
    r.Valid (bs.set i b') ↔
      r.Fits (UInt64.ofNat i) (before? none bs i) b' ∧
        (i + 1 < bs.length → b'.digest = b.digest) := by
  rw [Valid, h.firstViolation?_set hb, ← defect?_eq_none_iff]
  cases r.defect? (UInt64.ofNat i) (before? none bs i) b' <;> simp

end Rules

namespace Chain

/-- A valid chain with any block in place of the one at a position is judged there and at the next
position only. If the new block fails a check at its position, the first that it fails is reported. If
not, and if a block comes next and the new digest is not the old one, the broken link of that block is
reported. Otherwise the chain is valid, and then the new block is the old one, or is the tip, or has
another encoding than the old one with the same digest. -/
theorem replacement_judged_in_place {c : Chain} {i : Nat} {b : Block} (hlength : c.length < 2 ^ 64)
    (hvalid : c.validate.result = .ok ()) (hb : c.blocks[i]? = some b) (b' : Block) :
    ∃ c', ofBlocks c.rules.config c.rules.hasher (c.blocks.set i b') = .ok c' ∧
      (∀ kind, b'.FailsFirst c.rules.config c.rules.hasher i (before? none c.blocks i) kind →
        c'.validate.result = .error ⟨UInt64.ofNat i, kind⟩) ∧
      ((∀ kind, b'.Passes c.rules.config c.rules.hasher i (before? none c.blocks i) kind) →
        c'.validate.result =
          if i + 1 < c.length ∧ b'.digest ≠ b.digest
          then .error ⟨UInt64.ofNat (i + 1), .brokenLink⟩ else .ok ()) ∧
      (c'.validate.result = .ok () → b' ≠ b → i + 1 < c.length →
        b'.encode ≠ b.encode ∧
          c.rules.hasher.digest b'.encode = c.rules.hasher.digest b.encode) := by
  have h : c.rules.Valid c.blocks := result_validate_eq_ok_iff.mp hvalid
  have hi : i < c.length := (List.getElem?_eq_some_iff.mp hb).1
  have hposition : i < 2 ^ 64 := Nat.lt_trans hi hlength
  have hne : c.blocks.set i b' ≠ [] := by
    simp [c.blocks_ne_nil]
  have hfirst := h.firstViolation?_set hb b'
  refine ⟨⟨c.rules, _, hne⟩, ofBlocks_rules c.rules hne, ?_, ?_, ?_⟩
  · intro kind hfails
    rw [(Rules.defect?_eq_some_iff hposition).mpr hfails] at hfirst
    exact result_validate_eq_error_iff.mpr hfirst
  · intro hpasses
    rw [(Rules.defect?_eq_none_iff_forall_passes hposition).mpr hpasses] at hfirst
    by_cases hnoticed : i + 1 < c.length ∧ b'.digest ≠ b.digest
    · rw [if_pos hnoticed]
      exact result_validate_eq_error_iff.mpr (hfirst.trans (if_pos hnoticed))
    · rw [if_neg hnoticed]
      exact result_validate_eq_ok_iff.mpr (hfirst.trans (if_neg hnoticed))
  · intro hok hother hnext
    obtain ⟨hfits, hdigest⟩ := (h.set_iff hb b').mp (result_validate_eq_ok_iff.mp hok)
    have hsame : b'.digest = b.digest := hdigest hnext
    rcases Block.eq_or_collision_of_digest_eq hfits.digest (h.fits hb).digest hsame with
      heq | hcollision
    · exact absurd heq hother
    · exact hcollision

/-- A block with another payload and its old digest is not noticed, and collides with the old one. -/
theorem other_payload_unnoticed :
    let b' : Block := { (nonceTwo 1).tip with payload := [7] }
    ∃ c', ofBlocks Rules.nonceTwo.config Rules.nonceTwo.hasher
        ((nonceTwo 2).blocks.set 1 b') = .ok c' ∧
      c'.validate.result = .ok () ∧
      b'.encode ≠ (nonceTwo 1).tip.encode ∧
      Rules.nonceTwo.hasher.digest b'.encode =
        Rules.nonceTwo.hasher.digest (nonceTwo 1).tip.encode := by
  intro b'
  have hvalid : (nonceTwo 2).validate.result = .ok () := by rfl
  have hb : (nonceTwo 2).blocks[1]? = some (nonceTwo 1).tip := rfl
  have hpasses : ∀ kind, b'.Passes (nonceTwo 2).rules.config (nonceTwo 2).rules.hasher 1
      (before? none (nonceTwo 2).blocks 1) kind :=
    (Rules.defect?_eq_none_iff_forall_passes (by decide)).mp (by decide)
  obtain ⟨c', hwrapped, -, hresult, hcollision⟩ :=
    replacement_judged_in_place (by decide) hvalid hb b'
  have hok : c'.validate.result = .ok () := (hresult hpasses).trans (if_neg (by decide))
  exact ⟨c', hwrapped, hok, hcollision hok (by decide) (by decide)⟩

end Chain

end MinedChain
