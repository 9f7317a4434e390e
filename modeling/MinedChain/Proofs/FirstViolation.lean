import MinedChain.Proofs.Calls
import MinedChain.Proofs.Encoding
import MinedChain.Proofs.Settings
import MinedChain.Proofs.Verdict

/-!
# The first violation

Validation looks at one block after another, makes one check after another on each, and reports the
first that fails. `Block.Passes` says what each check asks for, apart from any order, and
`ViolationKind.rank` says the order. The report is determined by these two: it names the first position
at which a check fails and the first check that fails there.
-/

namespace MinedChain

/-- The place of a check in the order in which they are made on a block. The first place is that of the
identity of a block without predecessor, and of the link of any other. -/
def ViolationKind.rank : ViolationKind → Nat
  | .genesisMismatch => 0
  | .brokenLink => 0
  | .indexMismatch => 1
  | .digestMismatch => 2
  | .insufficientWork => 3

/-- Behind the first place, every place is that of one check. -/
theorem ViolationKind.eq_of_rank_eq {kind kind' : ViolationKind} (hrank : kind.rank = kind'.rank)
    (hpos : 0 < kind'.rank) : kind = kind' := by
  cases kind <;> cases kind' <;> simp [rank] at hrank hpos ⊢

namespace Block

/-- What a block at a position, behind a predecessor or none, must be like for the check of a kind. -/
def Passes (config : Config) (hasher : Hasher) (position : Nat) (predecessor : Option Block)
    (b : Block) : ViolationKind → Prop
  | .genesisMismatch => predecessor = none →
      b.index = 0 ∧ b.timestamp = 0 ∧ b.previousDigest = .zero ∧
        b.payload = Utf8.encode config.genesisPayload
  | .brokenLink => ∀ p, predecessor = some p → b.previousDigest = p.digest
  | .indexMismatch => b.index.toNat = position
  | .digestMismatch => hasher.digest b.encode = b.digest
  | .insufficientWork => config.difficulty.toNat ≤ b.digest.leadingZeroBits

/-- The check of the kind is the first that the block fails. -/
structure FailsFirst (config : Config) (hasher : Hasher) (position : Nat)
    (predecessor : Option Block) (b : Block) (kind : ViolationKind) : Prop where
  fails : ¬ b.Passes config hasher position predecessor kind
  before : ∀ k, k.rank < kind.rank → b.Passes config hasher position predecessor k

variable {config : Config} {hasher : Hasher} {position : Nat} {predecessor : Option Block} {b : Block}

/-- A block is not checked both for its identity and for its link. -/
theorem passes_genesis_or_link (config : Config) (hasher : Hasher) (position : Nat)
    (predecessor : Option Block) (b : Block) :
    b.Passes config hasher position predecessor .genesisMismatch ∨
      b.Passes config hasher position predecessor .brokenLink := by
  cases predecessor with
  | none => exact .inr fun p h => nomatch h
  | some p => exact .inl fun h => nomatch h

theorem FailsFirst.unique {kind kind' : ViolationKind}
    (h : b.FailsFirst config hasher position predecessor kind)
    (h' : b.FailsFirst config hasher position predecessor kind') : kind = kind' := by
  have hle : ¬ kind.rank < kind'.rank := fun hlt => h.fails (h'.before _ hlt)
  have hge : ¬ kind'.rank < kind.rank := fun hlt => h'.fails (h.before _ hlt)
  have hrank : kind.rank = kind'.rank := by omega
  by_cases hpos : 0 < kind'.rank
  · exact ViolationKind.eq_of_rank_eq hrank hpos
  · -- two kinds share the first place, and a block does not fail both
    have hfirst := passes_genesis_or_link config hasher position predecessor b
    have hfails := h.fails
    have hfails' := h'.fails
    cases kind <;> cases kind' <;> simp_all [ViolationKind.rank]

/-- A block that passes the checks before a place and the one there passes all up to that place. -/
theorem passes_of_rank_le {kind : ViolationKind} (hpos : 0 < kind.rank)
    (hbefore : ∀ k, k.rank < kind.rank → b.Passes config hasher position predecessor k)
    (hpasses : b.Passes config hasher position predecessor kind) :
    ∀ k, k.rank ≤ kind.rank → b.Passes config hasher position predecessor k := by
  intro k hk
  rcases Nat.lt_or_eq_of_le hk with hlt | heq
  · exact hbefore k hlt
  · rw [ViolationKind.eq_of_rank_eq heq hpos]
    exact hpasses

end Block

/-- The block before a position of a list that comes behind `predecessor`. -/
def before? (predecessor : Option Block) (bs : List Block) : Nat → Option Block
  | 0 => predecessor
  | i + 1 => bs[i]?

/-- Of all checks on the blocks of a list, that of the kind at the position is the first to fail. -/
structure IsFirstViolation (config : Config) (hasher : Hasher) (bs : List Block) (position : Nat)
    (kind : ViolationKind) : Prop where
  fails : ∃ b, bs[position]? = some b ∧
    b.FailsFirst config hasher position (before? none bs position) kind
  earlier : ∀ i < position, ∀ b, bs[i]? = some b →
    ∀ k, b.Passes config hasher i (before? none bs i) k

namespace IsFirstViolation

variable {config : Config} {hasher : Hasher} {bs : List Block} {i i' : Nat}
  {kind kind' : ViolationKind}

theorem unique (h : IsFirstViolation config hasher bs i kind)
    (h' : IsFirstViolation config hasher bs i' kind') : i = i' ∧ kind = kind' := by
  obtain ⟨b, hb, hfails⟩ := h.fails
  obtain ⟨b', hb', hfails'⟩ := h'.fails
  have hle : ¬ i < i' := fun hlt => hfails.fails (h'.earlier i hlt b hb kind)
  have hge : ¬ i' < i := fun hlt => hfails'.fails (h.earlier i' hlt b' hb' kind')
  obtain rfl : i = i' := by omega
  obtain rfl : b = b' := by
    rw [hb] at hb'
    injection hb'
  exact ⟨rfl, hfails.unique hfails'⟩

theorem position_eq_zero_of_genesisMismatch
    (h : IsFirstViolation config hasher bs i .genesisMismatch) : i = 0 := by
  obtain ⟨b, hb, hfails⟩ := h.fails
  cases i with
  | zero => rfl
  | succ i =>
    -- the block has a predecessor, so its identity is not checked
    have hi : i < bs.length := Nat.lt_of_succ_lt (List.getElem?_eq_some_iff.mp hb).1
    refine absurd (fun hnone => ?_) hfails.fails
    rw [before?, List.getElem?_eq_getElem hi] at hnone
    exact nomatch hnone

theorem position_ne_zero_of_brokenLink (h : IsFirstViolation config hasher bs i .brokenLink) :
    i ≠ 0 := by
  rintro rfl
  obtain ⟨b, -, hfails⟩ := h.fails
  exact hfails.fails fun p hp => nomatch hp

/-- The identity of a genesis block includes its index. -/
theorem position_ne_zero_of_indexMismatch
    (h : IsFirstViolation config hasher bs i .indexMismatch) : i ≠ 0 := by
  rintro rfl
  obtain ⟨b, -, hfails⟩ := h.fails
  obtain ⟨hindex, -⟩ := hfails.before .genesisMismatch (by decide) rfl
  exact hfails.fails (congrArg UInt64.toNat hindex)

end IsFirstViolation

namespace Rules

variable {r : Rules} {position : Nat} {predecessor : Option Block} {b : Block}

/-! ## One block -/

theorem isGenesis_iff :
    r.IsGenesis b ↔ b.index = 0 ∧ b.timestamp = 0 ∧ b.previousDigest = .zero ∧
      b.payload = Utf8.encode r.config.genesisPayload := by
  rw [IsGenesis, Contents.ext_iff, and_comm (a := b.previousDigest = .zero)]
  exact Iff.rfl

theorem linkDefect?_eq_none_iff (position : Nat) :
    r.linkDefect? predecessor b = none ↔
      b.Passes r.config r.hasher position predecessor .genesisMismatch ∧
        b.Passes r.config r.hasher position predecessor .brokenLink := by
  cases predecessor with
  | none => simp [linkDefect?_none_eq_none_iff, isGenesis_iff, Block.Passes]
  | some p => simp [linkDefect?_some_eq_none_iff, Block.Passes]

theorem index_eq_ofNat_iff (h : position < 2 ^ 64) :
    b.index = UInt64.ofNat position ↔
      b.Passes r.config r.hasher position predecessor .indexMismatch := by
  rw [← UInt64.toNat_inj, UInt64.toNat_ofNat_of_lt' h]
  exact Iff.rfl

theorem meets_iff_passes :
    b.digest.Meets r.work.difficulty ↔
      b.Passes r.config r.hasher position predecessor .insufficientWork := by
  rw [r.work.meets_iff, r.difficulty_work]
  exact Iff.rfl

theorem fits_iff_forall_passes (h : position < 2 ^ 64) :
    r.Fits (UInt64.ofNat position) predecessor b ↔
      ∀ k, b.Passes r.config r.hasher position predecessor k := by
  constructor
  · intro hfits k
    have hlink := (linkDefect?_eq_none_iff position).mp hfits.link
    cases k with
    | genesisMismatch => exact hlink.1
    | brokenLink => exact hlink.2
    | indexMismatch => exact (index_eq_ofNat_iff h).mp hfits.index
    | digestMismatch => exact hfits.digest
    | insufficientWork => exact meets_iff_passes.mp hfits.meets
  · intro hpasses
    have hlink := (linkDefect?_eq_none_iff position).mpr ⟨hpasses _, hpasses _⟩
    have hindex := (index_eq_ofNat_iff h).mpr (hpasses _)
    exact ⟨hlink, hindex, hpasses .digestMismatch, meets_iff_passes.mpr (hpasses _)⟩

theorem failsFirst_of_linkDefect?_eq_some {kind : ViolationKind}
    (h : r.linkDefect? predecessor b = some kind) :
    b.FailsFirst r.config r.hasher position predecessor kind := by
  cases predecessor with
  | none =>
    obtain ⟨hgenesis, rfl⟩ : ¬ r.IsGenesis b ∧ .genesisMismatch = kind := by simpa [linkDefect?] using h
    refine ⟨fun hpasses => hgenesis (isGenesis_iff.mpr (hpasses rfl)), ?_⟩
    exact fun k hk => absurd hk (Nat.not_lt_zero _)
  | some p =>
    obtain ⟨hlink, rfl⟩ : b.previousDigest ≠ p.digest ∧ .brokenLink = kind := by
      simpa [linkDefect?] using h
    refine ⟨fun hpasses => hlink (hpasses p rfl), ?_⟩
    exact fun k hk => absurd hk (Nat.not_lt_zero _)

theorem passes_of_linkDefect?_eq_none (position : Nat) (h : r.linkDefect? predecessor b = none) :
    ∀ k, k.rank < ViolationKind.indexMismatch.rank →
      b.Passes r.config r.hasher position predecessor k := by
  obtain ⟨hgenesis, hlink⟩ := (linkDefect?_eq_none_iff position).mp h
  intro k hk
  cases k with
  | genesisMismatch => exact hgenesis
  | brokenLink => exact hlink
  | indexMismatch => exact absurd hk (by decide)
  | digestMismatch => exact absurd hk (by decide)
  | insufficientWork => exact absurd hk (by decide)

theorem failsFirst_of_defect?_eq_some {kind : ViolationKind} (h : position < 2 ^ 64)
    (hdefect : r.defect? (UInt64.ofNat position) predecessor b = some kind) :
    b.FailsFirst r.config r.hasher position predecessor kind := by
  unfold defect? at hdefect
  split at hdefect
  next k hlink =>
    injection hdefect with hkind
    rw [← hkind]
    exact failsFirst_of_linkDefect?_eq_some hlink
  next hlink =>
    -- every check that comes out well adds its place to those that the block has passed
    have hlinked := passes_of_linkDefect?_eq_none position hlink
    by_cases hindex : b.index = UInt64.ofNat position
    · have hnumbered := Block.passes_of_rank_le (by decide) hlinked ((index_eq_ofNat_iff h).mp hindex)
      by_cases hdigest : b.computeDigest r.hasher = b.digest
      · have hhashed : ∀ k, k.rank ≤ ViolationKind.digestMismatch.rank →
            b.Passes r.config r.hasher position predecessor k :=
          Block.passes_of_rank_le (by decide) (fun k hk => hnumbered k (Nat.le_of_lt_succ hk)) hdigest
        obtain ⟨hmeets, rfl⟩ : ¬ b.digest.Meets r.work.difficulty ∧ .insufficientWork = kind := by
          simpa [hindex, hdigest] using hdefect
        refine ⟨fun hpasses => hmeets (meets_iff_passes.mpr hpasses), ?_⟩
        exact fun k hk => hhashed k (Nat.le_of_lt_succ hk)
      · obtain rfl : .digestMismatch = kind := by simpa [hindex, hdigest] using hdefect
        exact ⟨hdigest, fun k hk => hnumbered k (Nat.le_of_lt_succ hk)⟩
    · obtain rfl : .indexMismatch = kind := by simpa [hindex] using hdefect
      exact ⟨fun hpasses => hindex ((index_eq_ofNat_iff h).mpr hpasses), hlinked⟩

theorem defect?_eq_none_iff_forall_passes (h : position < 2 ^ 64) :
    r.defect? (UInt64.ofNat position) predecessor b = none ↔
      ∀ k, b.Passes r.config r.hasher position predecessor k :=
  defect?_eq_none_iff.trans (fits_iff_forall_passes h)

/-- The defect of a block is the first check that it fails. -/
theorem defect?_eq_some_iff {kind : ViolationKind} (h : position < 2 ^ 64) :
    r.defect? (UInt64.ofNat position) predecessor b = some kind ↔
      b.FailsFirst r.config r.hasher position predecessor kind := by
  constructor
  · exact failsFirst_of_defect?_eq_some h
  · intro hfails
    cases hdefect : r.defect? (UInt64.ofNat position) predecessor b with
    | none =>
      exact absurd ((defect?_eq_none_iff_forall_passes h).mp hdefect kind) hfails.fails
    | some kind' => rw [(failsFirst_of_defect?_eq_some h hdefect).unique hfails]

/-! ## Lists of blocks -/

/-- The predecessors in the rest of a list are those in the list. -/
theorem before?_cons (predecessor : Option Block) (b : Block) (bs : List Block) (i : Nat) :
    before? predecessor (b :: bs) (i + 1) = before? (some b) bs i := by
  cases i <;> rfl

theorem firstViolation?_eq_none_iff {position : Nat} {predecessor : Option Block} {bs : List Block} :
    r.firstViolation? position predecessor bs = none ↔ ∀ i b, bs[i]? = some b →
      r.Fits (UInt64.ofNat (position + i)) (before? predecessor bs i) b := by
  induction bs generalizing position predecessor with
  | nil => simp [firstViolation?]
  | cons b bs ih =>
    -- the first block becomes the predecessor of the rest, one position on
    rw [firstViolation?]
    cases hdefect : r.defect? (UInt64.ofNat position) predecessor b with
    | some kind =>
      constructor
      · intro h
        contradiction
      · intro h
        have hfits : r.defect? (UInt64.ofNat position) predecessor b = none :=
          defect?_eq_none_iff.mpr (h 0 b rfl)
        rw [hdefect] at hfits
        contradiction
    | none =>
      have hfits := defect?_eq_none_iff.mp hdefect
      show r.firstViolation? (position + 1) (some b) bs = none ↔ _
      rw [ih]
      constructor
      · intro h i x hx
        cases i with
        | zero =>
          obtain rfl : b = x := by simpa using hx
          exact hfits
        | succ i =>
          rw [before?_cons, ← Nat.add_assoc, Nat.add_right_comm]
          exact h i x hx
      · intro h i x hx
        have hnext := h (i + 1) x hx
        rw [before?_cons, ← Nat.add_assoc, Nat.add_right_comm] at hnext
        exact hnext

/-- A list is valid exactly if every block fits at its position, behind the block before it. -/
theorem valid_iff_forall_fits {bs : List Block} :
    r.Valid bs ↔
      ∀ i (b : Block), bs[i]? = some b → r.Fits (UInt64.ofNat i) (before? none bs i) b := by
  rw [Valid, firstViolation?_eq_none_iff]
  simp only [Nat.zero_add]

theorem Valid.fits {bs : List Block} {i : Nat} (h : r.Valid bs) (hb : bs[i]? = some b) :
    r.Fits (UInt64.ofNat i) (before? none bs i) b :=
  valid_iff_forall_fits.mp h i b hb

/-- A reported violation is the defect of the first block that has one. -/
theorem exists_of_firstViolation?_eq_some {position : Nat} {predecessor : Option Block}
    {bs : List Block} {v : Violation} (h : r.firstViolation? position predecessor bs = some v) :
    ∃ i b, bs[i]? = some b ∧ v.index = UInt64.ofNat (position + i) ∧
      r.defect? (UInt64.ofNat (position + i)) (before? predecessor bs i) b = some v.kind ∧
      r.firstViolation? position predecessor (bs.take i) = none := by
  induction bs generalizing position predecessor with
  | nil => exact nomatch h
  | cons b bs ih =>
    rw [firstViolation?] at h
    cases hdefect : r.defect? (UInt64.ofNat position) predecessor b with
    | some kind =>
      rw [hdefect] at h
      injection h with h
      rw [← h]
      exact ⟨0, b, rfl, rfl, hdefect, rfl⟩
    | none =>
      rw [hdefect] at h
      obtain ⟨i, x, hx, hindex, hkind, hbefore⟩ := ih h
      refine ⟨i + 1, x, hx, ?_, ?_, ?_⟩
      · rw [hindex, Nat.add_right_comm]
        rfl
      · rw [before?_cons, ← Nat.add_assoc, Nat.add_right_comm]
        exact hkind
      · rw [List.take_succ_cons, firstViolation?, hdefect]
        exact hbefore

theorem before?_take {i j : Nat} (predecessor : Option Block) (bs : List Block) (h : j < i) :
    before? predecessor (bs.take i) j = before? predecessor bs j := by
  cases j with
  | zero => rfl
  | succ j => exact List.getElem?_take_of_lt (Nat.lt_of_succ_lt h)

section

variable {bs : List Block} (hlength : bs.length < 2 ^ 64)

include hlength

theorem valid_iff_forall_passes :
    r.Valid bs ↔ ∀ i (b : Block), bs[i]? = some b →
      ∀ k, b.Passes r.config r.hasher i (before? none bs i) k := by
  have hposition : ∀ {i b}, bs[i]? = some b → i < 2 ^ 64 := fun h =>
    Nat.lt_trans (List.getElem?_eq_some_iff.mp h).1 hlength
  rw [valid_iff_forall_fits]
  constructor
  · intro h i b hb
    exact (fits_iff_forall_passes (hposition hb)).mp (h i b hb)
  · intro h i b hb
    exact (fits_iff_forall_passes (hposition hb)).mpr (h i b hb)

theorem isFirstViolation_of_firstViolation?_eq_some {v : Violation}
    (h : r.firstViolation? 0 none bs = some v) :
    IsFirstViolation r.config r.hasher bs v.index.toNat v.kind := by
  obtain ⟨i, b, hb, hindex, hdefect, hbefore⟩ := exists_of_firstViolation?_eq_some h
  rw [Nat.zero_add] at hindex hdefect
  have hi : i < bs.length := (List.getElem?_eq_some_iff.mp hb).1
  have hposition : i < 2 ^ 64 := Nat.lt_trans hi hlength
  have hword : v.index.toNat = i := by
    rw [hindex]
    exact UInt64.toNat_ofNat_of_lt' hposition
  rw [hword]
  refine ⟨⟨b, hb, failsFirst_of_defect?_eq_some hposition hdefect⟩, ?_⟩
  -- the blocks before it are a valid list of their own, with the same predecessors
  have htake : (bs.take i).length < 2 ^ 64 := by
    rw [List.length_take]
    omega
  intro j hj x hx k
  rw [← before?_take none bs hj]
  refine (valid_iff_forall_passes htake).mp hbefore j x ?_ k
  rw [List.getElem?_take_of_lt hj]
  exact hx

/-- The report on a list is its first violation. -/
theorem firstViolation?_eq_some_iff {v : Violation} :
    r.firstViolation? 0 none bs = some v ↔
      IsFirstViolation r.config r.hasher bs v.index.toNat v.kind := by
  constructor
  · exact isFirstViolation_of_firstViolation?_eq_some hlength
  · intro h
    cases hreport : r.firstViolation? 0 none bs with
    | none =>
      -- in a valid list no check fails, and here one does
      obtain ⟨b, hb, hfails⟩ := h.fails
      exact absurd ((valid_iff_forall_passes hlength).mp hreport _ b hb _) hfails.fails
    | some v' =>
      have h' := isFirstViolation_of_firstViolation?_eq_some hlength hreport
      obtain ⟨hindex, hkind⟩ := h'.unique h
      rw [UInt64.toNat_inj] at hindex
      cases v
      cases v'
      simp only at hindex hkind
      rw [hindex, hkind]

end

end Rules

/-! ## Wrapped blocks -/

namespace Chain

/-- Validation of wrapped blocks accepts exactly those on which every check passes. What it reports of
others is the first position at which a check fails with the first check that fails there. So the
genesis block is never reported for its index or a link, and no other block as a wrong genesis. -/
theorem validate_reports_first_violation {config : Config} {hasher : Hasher} {bs : List Block}
    {c : Chain} (hlength : bs.length < 2 ^ 64) (hwrapped : ofBlocks config hasher bs = .ok c) :
    (c.validate.result = .ok () ↔ ∀ i (b : Block), bs[i]? = some b →
      ∀ k, b.Passes config hasher i (before? none bs i) k) ∧
    (∀ i kind, c.validate.result = .error ⟨i, kind⟩ ↔
      IsFirstViolation config hasher bs i.toNat kind) ∧
    (∀ i, c.validate.result = .error ⟨i, .indexMismatch⟩ → i ≠ 0) ∧
    (∀ i, c.validate.result = .error ⟨i, .genesisMismatch⟩ → i = 0) ∧
    (∀ i, c.validate.result = .error ⟨i, .brokenLink⟩ → i ≠ 0) := by
  obtain ⟨hrules, rfl⟩ := ofBlocks_eq_ok_iff.mp hwrapped
  obtain ⟨rfl, rfl⟩ := Rules.of_eq_ok hrules
  have hreport : ∀ i kind, c.validate.result = .error ⟨i, kind⟩ ↔
      IsFirstViolation c.rules.config c.rules.hasher c.blocks i.toNat kind := fun i kind =>
    result_validate_eq_error_iff.trans (Rules.firstViolation?_eq_some_iff hlength)
  refine ⟨result_validate_eq_ok_iff.trans (Rules.valid_iff_forall_passes hlength), hreport, ?_, ?_, ?_⟩
  · intro i h hi
    rw [hreport, hi] at h
    exact h.position_ne_zero_of_indexMismatch rfl
  · intro i h
    rw [hreport] at h
    exact UInt64.toNat_inj.mp h.position_eq_zero_of_genesisMismatch
  · intro i h hi
    rw [hreport, hi] at h
    exact h.position_ne_zero_of_brokenLink rfl

/-- A block with a wrong index and a wrong link is reported for its link. -/
theorem wrong_link_reported_first :
    let bs := (nonceTwo 0).blocks ++
      [{ (nonceTwo 1).tip with index := 7, previousDigest := ⟨List.replicate digestSize 255, rfl⟩ }]
    IsFirstViolation Rules.nonceTwo.config Rules.nonceTwo.hasher bs 1 .brokenLink := by
  intro bs
  have hwrapped : ofBlocks Rules.nonceTwo.config Rules.nonceTwo.hasher bs =
      .ok ⟨.nonceTwo, bs, by decide⟩ := ofBlocks_eq_ok_iff.mpr ⟨Rules.of_config_hasher _, rfl⟩
  obtain ⟨-, hreport, -⟩ := validate_reports_first_violation (by decide) hwrapped
  exact (hreport 1 .brokenLink).mp (result_validate_eq_error_iff.mpr (by decide))

end Chain

end MinedChain
