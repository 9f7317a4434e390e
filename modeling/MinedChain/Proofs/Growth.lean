import MinedChain.Proofs.Calls
import MinedChain.Proofs.Verdict

/-!
# Verdicts on chains that grow

Whether a chain is valid or not, calls do not change the verdict on it. A violation stays the first one
whatever comes behind it. And a block that is mined on the tip of a valid chain passes all checks: its
contents are made from the stored index and digest of the tip, and those of a valid chain are the ones
that its position and its link ask for.
-/

namespace MinedChain.Chain

variable {c : Chain} {q : Request} {b : Block}

/-- A block that a call on a valid chain is granted fits behind the tip. -/
theorem fits_of_answer_eq_ok (hvalid : c.rules.Valid c.blocks) (ha : c.answer q = .ok b) :
    c.rules.Fits (UInt64.ofNat c.length) (some c.tip) b := by
  obtain ⟨-, hmined⟩ := answer_eq_ok_iff.mp ha
  obtain ⟨hcontents, hdigest, hnonce⟩ := Contents.mined_eq_ok_iff.mp hmined
  have hlink : b.previousDigest = c.tip.digest := by
    rw [hcontents]
    rfl
  have hindex : b.index = UInt64.ofNat c.length := by
    -- the index is counted on from that of the tip, and this is where the tip must be in its place
    rw [hcontents]
    exact index_tip_add_one_of_valid hvalid
  have hmeets : b.digest.Meets c.rules.work.difficulty := by
    rw [← hdigest]
    exact hnonce.meets
  exact ⟨Rules.linkDefect?_some_eq_none_iff.mpr hlink, hindex, hdigest, hmeets⟩

/-- No block that is put behind a violation changes it. -/
theorem validate_push_of_error {v : Violation} (h : c.validate.result = .error v) (b : Block) :
    (c.push b).validate.result = .error v := by
  rw [result_validate_eq_error_iff] at h ⊢
  rw [rules_push, blocks_push, Rules.firstViolation?_append, h, Option.some_or]

theorem validate_push_of_ok (h : c.validate.result = .ok ()) (ha : c.answer q = .ok b) :
    (c.push b).validate.result = .ok () := by
  rw [result_validate_eq_ok_iff] at h ⊢
  exact valid_push_iff.mpr ⟨h, fits_of_answer_eq_ok h ha⟩

theorem validate_push (ha : c.answer q = .ok b) :
    (c.push b).validate.result = c.validate.result := by
  cases h : c.validate.result with
  | ok => exact validate_push_of_ok h ha
  | error v => exact validate_push_of_error h b

/-- Calls neither break nor repair a chain: whatever blocks it holds, and whatever calls are made on it,
the verdict afterwards is the verdict before. -/
theorem run_keeps_verdict (c : Chain) (qs : List Request) :
    (c.run qs).validate.result = c.validate.result := by
  refine run_induction (P := fun c' => c'.validate.result = c.validate.result) ?_ rfl qs
  intro c' q b hsame ha
  rw [validate_push ha, hsame]

end MinedChain.Chain
