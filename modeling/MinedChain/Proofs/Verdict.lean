import MinedChain.Chain
import MinedChain.Proofs.Words

/-!
# Valid lists of blocks

A list of blocks is valid under rules when none of its blocks has a defect. What a block without a
defect is like is said here once, in `Rules.Fits`. A list is read from its first block on and what it
holds so far is never looked at again, apart from the block before, so validity grows block by block.
-/

namespace MinedChain

namespace Rules

/-! ## One block -/

/-- The block passes every check at a position. -/
structure Fits (r : Rules) (position : UInt64) (predecessor : Option Block) (b : Block) : Prop where
  link : r.linkDefect? predecessor b = none
  index : b.index = position
  digest : b.computeDigest r.hasher = b.digest
  meets : b.digest.Meets r.work.difficulty

theorem linkDefect?_none_eq_none_iff {r : Rules} {b : Block} :
    r.linkDefect? none b = none ↔ r.IsGenesis b := by
  rw [linkDefect?]
  split
  next h => exact ⟨fun _ => h, fun _ => rfl⟩
  next h => exact ⟨fun h' => (nomatch h'), fun h' => absurd h' h⟩

theorem linkDefect?_some_eq_none_iff {r : Rules} {p b : Block} :
    r.linkDefect? (some p) b = none ↔ b.previousDigest = p.digest := by
  rw [linkDefect?]
  split
  next h => exact ⟨fun _ => h, fun _ => rfl⟩
  next h => exact ⟨fun h' => (nomatch h'), fun h' => absurd h' h⟩

theorem defect?_eq_none_iff {r : Rules} {position : UInt64} {predecessor : Option Block} {b : Block} :
    r.defect? position predecessor b = none ↔ r.Fits position predecessor b := by
  constructor
  · intro h
    unfold defect? at h
    split at h
    next => contradiction
    next hlink =>
      by_cases hindex : b.index = position
      · by_cases hdigest : b.computeDigest r.hasher = b.digest
        · by_cases hmeets : b.digest.Meets r.work.difficulty
          · exact ⟨hlink, hindex, hdigest, hmeets⟩
          · simp [hindex, hdigest, hmeets] at h
        · simp [hindex, hdigest] at h
      · simp [hindex] at h
  · intro h
    obtain ⟨hlink, hindex, hdigest, hmeets⟩ := h
    simp [defect?, hlink, hindex, hdigest, hmeets]

/-! ## Lists of blocks -/

/-- The last of the blocks `predecessor`, `b` and those of `bs`. -/
theorem getLast?_cons_or (b : Block) (bs : List Block) (predecessor : Option Block) :
    (b :: bs).getLast?.or predecessor = bs.getLast?.or (some b) := by
  rw [List.getLast?_cons, Option.some_or]
  cases bs.getLast? <;> rfl

/-- The blocks of a second list are looked at if those of the first have no defect, and then from the
position behind them on. -/
theorem firstViolation?_append (r : Rules) (position : Nat) (predecessor : Option Block)
    (bs bs' : List Block) :
    r.firstViolation? position predecessor (bs ++ bs') =
      (r.firstViolation? position predecessor bs).or
        (r.firstViolation? (position + bs.length) (bs.getLast?.or predecessor) bs') := by
  induction bs generalizing position predecessor with
  | nil => rfl
  | cons b bs ih =>
    rw [List.cons_append, firstViolation?, firstViolation?]
    cases r.defect? (UInt64.ofNat position) predecessor b with
    | some kind => rfl
    | none =>
      have hlength : position + 1 + bs.length = position + (b :: bs).length := by
        rw [List.length_cons]
        omega
      show r.firstViolation? (position + 1) (some b) (bs ++ bs') = _
      rw [ih, hlength, getLast?_cons_or]

/-- The list has no violation. -/
def Valid (r : Rules) (bs : List Block) : Prop := r.firstViolation? 0 none bs = none

instance (r : Rules) (bs : List Block) : Decidable (r.Valid bs) :=
  inferInstanceAs (Decidable (_ = _))

theorem valid_nil (r : Rules) : r.Valid [] := rfl

/-- A list that grows stays valid exactly if the new block fits behind it. -/
theorem valid_concat_iff {r : Rules} {bs : List Block} {b : Block} :
    r.Valid (bs ++ [b]) ↔ r.Valid bs ∧ r.Fits (UInt64.ofNat bs.length) bs.getLast? b := by
  have hlast : r.firstViolation? bs.length bs.getLast? [b] = none ↔
      r.Fits (UInt64.ofNat bs.length) bs.getLast? b := by
    rw [← defect?_eq_none_iff, firstViolation?]
    split
    next h => simp [h]
    next h => exact ⟨fun _ => h, fun _ => rfl⟩
  rw [Valid, firstViolation?_append, Option.or_eq_none_iff, Nat.zero_add, Option.or_none, hlast]
  exact Iff.rfl

theorem valid_singleton_iff {r : Rules} {b : Block} : r.Valid [b] ↔ r.Fits 0 none b := by
  have h := @valid_concat_iff r [] b
  exact h.trans ⟨fun h => h.2, fun h => ⟨r.valid_nil, h⟩⟩

/-- The blocks of a valid list are numbered by their positions. -/
theorem Valid.index_getLast {r : Rules} {bs : List Block} {b : Block} (h : r.Valid (bs ++ [b])) :
    b.index = UInt64.ofNat bs.length :=
  (valid_concat_iff.mp h).2.index

end Rules

namespace Chain

theorem result_validate_eq_ok_iff {c : Chain} :
    c.validate.result = .ok () ↔ c.rules.Valid c.blocks := by
  rw [validate, Rules.verdict, Rules.Valid]
  split
  next h => exact ⟨fun _ => h, fun _ => rfl⟩
  next h => exact ⟨fun h' => (nomatch h'), fun h' => (nomatch h.symm.trans h')⟩

theorem result_validate_eq_error_iff {c : Chain} {v : Violation} :
    c.validate.result = .error v ↔ c.rules.firstViolation? 0 none c.blocks = some v := by
  rw [validate, Rules.verdict]
  cases c.rules.firstViolation? 0 none c.blocks <;> simp

/-- A chain that grows stays valid exactly if the new block fits behind the tip. -/
theorem valid_push_iff {c : Chain} {b : Block} :
    (c.push b).rules.Valid (c.push b).blocks ↔
      c.rules.Valid c.blocks ∧ c.rules.Fits (UInt64.ofNat c.length) (some c.tip) b := by
  rw [rules_push, blocks_push, Rules.valid_concat_iff, getLast?_blocks, length]

/-- The tip of a valid chain is numbered by its position. -/
theorem index_tip_of_valid {c : Chain} (h : c.rules.Valid c.blocks) :
    c.tip.index = UInt64.ofNat (c.length - 1) := by
  rw [← c.dropLast_concat_tip] at h
  rw [h.index_getLast, List.length_dropLast, length]

/-- Behind a valid chain, the index after the tip's is the next position. -/
theorem index_tip_add_one_of_valid {c : Chain} (h : c.rules.Valid c.blocks) :
    c.tip.index + 1 = UInt64.ofNat c.length := by
  have hlength := c.length_pos
  have hsum : c.length - 1 + 1 = c.length := by omega
  rw [index_tip_of_valid h, ← UInt64.ofNat_one, ← UInt64.ofNat_add, hsum]

/-- The tip of a valid chain of fewer than `2 ^ 64` blocks has a successor. -/
theorem index_tip_ne_maxWord_of_valid {c : Chain} (h : c.rules.Valid c.blocks)
    (hlength : c.length < 2 ^ 64) : c.tip.index ≠ maxWord := by
  intro hmax
  have hpos := c.length_pos
  have hword : c.length - 1 < UInt64.size := by
    show c.length - 1 < 2 ^ 64
    omega
  have hnat := congrArg UInt64.toNat (index_tip_of_valid h)
  rw [hmax, toNat_maxWord, UInt64.toNat_ofNat_of_lt' hword] at hnat
  omega

end Chain

/-! ## Small valid chains -/

/-- Rules under which digests meet the difficulty for nonce two only. -/
def Rules.nonceTwo : Rules where
  hasher := .onSuffix 2 .zero ⟨List.replicate digestSize 255, rfl⟩
  config := { difficulty := 8, hashAlgorithm := "target" }
  work := ⟨8, none, by decide⟩
  accepted := by rfl

/-- A chain of nonces two, with some blocks of no payload behind its genesis block. -/
def Chain.nonceTwo : Nat → Chain
  | 0 => single .nonceTwo { Rules.nonceTwo.genesisContents with nonce := 2, digest := .zero }
  | n + 1 =>
    let c := nonceTwo n
    c.push { c.nextContents [] 5 with nonce := 2, digest := .zero }

end MinedChain
