import MinedChain.Proofs.FirstViolation

/-!
# Validation under a higher difficulty

Of the settings, the checks on a block read the genesis payload and the difficulty, and only the last check
reads the difficulty. So under a higher difficulty a block fails the check that it fails under the lower
one, or if it fails none there, the last. The report on a list stays what it is, unless a block in front of
the reported one has no longer enough work, and then the first such block is reported for that.
-/

namespace MinedChain

namespace ViolationKind

/-- The check of the work is the last. -/
theorem rank_lt_of_ne {kind : ViolationKind} (h : kind ≠ .insufficientWork) :
    kind.rank < ViolationKind.insufficientWork.rank := by
  cases kind with
  | insufficientWork => exact absurd rfl h
  | _ => decide

end ViolationKind

section

variable {config config' : Config} {hasher : Hasher}
  (hpayload : config'.genesisPayload = config.genesisPayload)

include hpayload

/-! ## One block -/

namespace Block

variable {position : Nat} {predecessor : Option Block} {b : Block} {kind : ViolationKind}

/-- No check but that of the work reads the difficulty. -/
theorem passes_congr (hkind : kind ≠ .insufficientWork) :
    b.Passes config' hasher position predecessor kind ↔
      b.Passes config hasher position predecessor kind := by
  cases kind with
  | insufficientWork => exact absurd rfl hkind
  | genesisMismatch => rw [Passes, Passes, hpayload]
  | _ => exact Iff.rfl

variable (hle : config'.difficulty ≤ config.difficulty)

include hle

theorem Passes.of_difficulty_le (h : b.Passes config hasher position predecessor kind) :
    b.Passes config' hasher position predecessor kind := by
  by_cases hkind : kind = .insufficientWork
  · subst hkind
    exact Nat.le_trans hle h
  · exact (passes_congr hpayload hkind).mpr h

/-- A block that fails a check first under the higher difficulty fails it first under the lower one, or else
it is the check of the work, and under the lower difficulty the block passes all. -/
theorem FailsFirst.of_difficulty_le (h : b.FailsFirst config hasher position predecessor kind) :
    b.FailsFirst config' hasher position predecessor kind ∨
      kind = .insufficientWork ∧ ∀ k, b.Passes config' hasher position predecessor k := by
  have hbefore : ∀ k, k.rank < kind.rank → b.Passes config' hasher position predecessor k :=
    fun k hk => (h.before k hk).of_difficulty_le hpayload hle
  by_cases hpasses : b.Passes config' hasher position predecessor kind
  · right
    have hkind : kind = .insufficientWork := by
      by_contra hkind
      exact h.fails ((passes_congr hpayload hkind).mp hpasses)
    refine ⟨hkind, fun k => ?_⟩
    subst hkind
    by_cases hk : k = .insufficientWork
    · rw [hk]
      exact hpasses
    · exact hbefore k (ViolationKind.rank_lt_of_ne hk)
  · exact .inl ⟨hpasses, hbefore⟩

end Block

/-! ## Lists of blocks -/

/-- The first violation under the higher difficulty is that under the lower one, or else it is one of the
work, and under the lower difficulty no check fails on any block up to there. -/
theorem IsFirstViolation.of_difficulty_le (hle : config'.difficulty ≤ config.difficulty)
    {bs : List Block} {i : Nat} {kind : ViolationKind} (h : IsFirstViolation config hasher bs i kind) :
    IsFirstViolation config' hasher bs i kind ∨
      kind = .insufficientWork ∧ ∀ j ≤ i, ∀ b, bs[j]? = some b →
        ∀ k, b.Passes config' hasher j (before? none bs j) k := by
  obtain ⟨b, hb, hfails⟩ := h.fails
  have hearlier : ∀ j < i, ∀ x, bs[j]? = some x →
      ∀ k, x.Passes config' hasher j (before? none bs j) k :=
    fun j hj x hx k => (h.earlier j hj x hx k).of_difficulty_le hpayload hle
  rcases hfails.of_difficulty_le hpayload hle with hfails' | ⟨hkind, hpasses⟩
  · exact .inl ⟨⟨b, hb, hfails'⟩, hearlier⟩
  · refine .inr ⟨hkind, fun j hj x hx => ?_⟩
    rcases Nat.lt_or_eq_of_le hj with hlt | rfl
    · exact hearlier j hlt x hx
    · obtain rfl : b = x := Option.some.inj (hb.symm.trans hx)
      exact hpasses

end

/-! ## Wrapped blocks -/

namespace Chain

variable {config config' : Config} {hasher : Hasher} {bs : List Block} {c c' : Chain}

section

variable (hlength : bs.length < 2 ^ 64) (hwrapped : ofBlocks config hasher bs = .ok c)

include hlength hwrapped

theorem result_validate_ofBlocks_eq_ok_iff :
    c.validate.result = .ok () ↔ ∀ i (b : Block), bs[i]? = some b →
      ∀ k, b.Passes config hasher i (before? none bs i) k := by
  obtain ⟨hrules, rfl⟩ := ofBlocks_eq_ok_iff.mp hwrapped
  obtain ⟨rfl, rfl⟩ := Rules.of_eq_ok hrules
  exact result_validate_eq_ok_iff.trans (Rules.valid_iff_forall_passes hlength)

theorem result_validate_ofBlocks_eq_error_iff {v : Violation} :
    c.validate.result = .error v ↔ IsFirstViolation config hasher bs v.index.toNat v.kind := by
  obtain ⟨hrules, rfl⟩ := ofBlocks_eq_ok_iff.mp hwrapped
  obtain ⟨rfl, rfl⟩ := Rules.of_eq_ok hrules
  exact result_validate_eq_error_iff.trans (Rules.firstViolation?_eq_some_iff hlength)

end

/-- The verdict stays, or a block is reported for its work that comes before whatever is reported under the
lower difficulty. -/
theorem validate_of_difficulty_le (hlength : bs.length < 2 ^ 64)
    (hwrapped : ofBlocks config hasher bs = .ok c) (hwrapped' : ofBlocks config' hasher bs = .ok c')
    (hpayload : config'.genesisPayload = config.genesisPayload)
    (hle : config'.difficulty ≤ config.difficulty) :
    c.validate.result = c'.validate.result ∨
      ∃ i, c.validate.result = .error ⟨i, .insufficientWork⟩ ∧
        ∀ v, c'.validate.result = .error v → i < v.index := by
  cases hverdict : c.validate.result with
  | ok =>
    left
    have hpasses := (result_validate_ofBlocks_eq_ok_iff hlength hwrapped).mp hverdict
    refine ((result_validate_ofBlocks_eq_ok_iff hlength hwrapped').mpr ?_).symm
    exact fun i b hb k => (hpasses i b hb k).of_difficulty_le hpayload hle
  | error v =>
    have hfirst := (result_validate_ofBlocks_eq_error_iff hlength hwrapped).mp hverdict
    rcases hfirst.of_difficulty_le hpayload hle with hfirst' | ⟨hkind, hpasses⟩
    · exact .inl ((result_validate_ofBlocks_eq_error_iff hlength hwrapped').mpr hfirst').symm
    · refine .inr ⟨v.index, ?_, fun v' hverdict' => ?_⟩
      · rw [← hkind]
      · -- what is reported under the lower difficulty fails a check there
        have hfirst' := (result_validate_ofBlocks_eq_error_iff hlength hwrapped').mp hverdict'
        obtain ⟨b, hb, hfails⟩ := hfirst'.fails
        refine UInt64.not_le.mp fun hle' => hfails.fails ?_
        exact hpasses _ hle' b hb v'.kind

/-- Blocks that are wrapped under two settings of one genesis payload are judged alike, unless the higher of
the two difficulties brings forward what is reported: a block is then reported under it for its work, and
nothing up to that block is reported under the lower one. So what is valid under a difficulty is valid under
every lower one, and what the settings say besides does not matter. -/
theorem raised_difficulty_reports_work_earlier (hlength : bs.length < 2 ^ 64)
    (hwrapped : ofBlocks config hasher bs = .ok c) (hwrapped' : ofBlocks config' hasher bs = .ok c')
    (hpayload : config'.genesisPayload = config.genesisPayload)
    (hle : config'.difficulty ≤ config.difficulty) :
    (c.validate.result = c'.validate.result ∨
      ∃ i, c.validate.result = .error ⟨i, .insufficientWork⟩ ∧
        (c'.validate.result = .ok () ∨
          ∃ j kind, i < j ∧ c'.validate.result = .error ⟨j, kind⟩)) ∧
    (c.validate.result = .ok () → c'.validate.result = .ok ()) ∧
    (config'.difficulty = config.difficulty → c.validate.result = c'.validate.result) := by
  have hraised := validate_of_difficulty_le hlength hwrapped hwrapped' hpayload hle
  refine ⟨?_, ?_, ?_⟩
  · refine hraised.imp_right ?_
    rintro ⟨i, hwork, hbehind⟩
    refine ⟨i, hwork, ?_⟩
    cases hverdict' : c'.validate.result with
    | ok => exact .inl rfl
    | error v => exact .inr ⟨v.index, v.kind, hbehind v hverdict', rfl⟩
  · intro hok
    rcases hraised with hsame | ⟨i, hwork, -⟩
    · exact hsame.symm.trans hok
    · exact nomatch hok.symm.trans hwork
  · intro hdifficulty
    have hge : config.difficulty ≤ config'.difficulty := UInt32.le_of_eq hdifficulty.symm
    rcases hraised with hsame | ⟨i, hwork, hbehind⟩
    · exact hsame
    · rcases validate_of_difficulty_le hlength hwrapped' hwrapped hpayload.symm hge with
        hsame | ⟨i', hwork', hbehind'⟩
      · exact hsame.symm
      · -- each of the two reports would come before the other
        have hlt : i < i' := hbehind _ hwork'
        have hgt : i' < i := hbehind' _ hwork
        exact absurd hgt (UInt64.lt_asymm hlt)

/-- Blocks whose digest has eight zero bits, the second of them linked to no block, are reported for the
link under difficulty eight, and under difficulty nine for work, and before. -/
theorem work_reported_before_broken_link :
    let digest : Digest := ⟨0 :: List.replicate 31 255, rfl⟩
    let config : Config := { difficulty := 9, hashAlgorithm := "const" }
    let config' : Config := { difficulty := 8, hashAlgorithm := "CONST", maxAttempts := some 0 }
    let bs : List Block := [⟨⟨0, 0, Utf8.encode "Genesis Block", .zero⟩, 4, digest⟩,
      ⟨⟨1, 0, [], .zero⟩, 4, digest⟩]
    ∃ c c', ofBlocks config (.constant digest) bs = .ok c ∧
      ofBlocks config' (.constant digest) bs = .ok c' ∧
      c'.validate.result = .error ⟨1, .brokenLink⟩ ∧
      ∃ i < 1, c.validate.result = .error ⟨i, .insufficientWork⟩ := by
  intro digest config config' bs
  let r : Rules := ⟨.constant digest, config, ⟨9, none, by decide⟩,
    Config.workFor_eq_ok_iff.mpr ⟨by decide, rfl, rfl⟩⟩
  let r' : Rules := ⟨.constant digest, config', ⟨8, some 0, by decide⟩,
    Config.workFor_eq_ok_iff.mpr ⟨by decide, rfl, rfl⟩⟩
  have hwrapped : ofBlocks config (.constant digest) bs = .ok ⟨r, bs, by decide⟩ :=
    ofBlocks_eq_ok_iff.mpr ⟨r.of_config_hasher, rfl⟩
  have hwrapped' : ofBlocks config' (.constant digest) bs = .ok ⟨r', bs, by decide⟩ :=
    ofBlocks_eq_ok_iff.mpr ⟨r'.of_config_hasher, rfl⟩
  have hbroken : (⟨r', bs, by decide⟩ : Chain).validate.result = .error ⟨1, .brokenLink⟩ :=
    result_validate_eq_error_iff.mpr (by decide)
  refine ⟨_, _, hwrapped, hwrapped', hbroken, ?_⟩
  obtain ⟨hsame | ⟨i, hwork, hok | ⟨j, kind, hlt, hverdict'⟩⟩, -⟩ :=
    raised_difficulty_reports_work_earlier (by decide) hwrapped hwrapped' rfl (by decide)
  · -- no link is judged behind a block without enough work
    exact absurd (result_validate_eq_error_iff.mp (hsame.trans hbroken)) (by decide)
  · exact nomatch hbroken.symm.trans hok
  · injection hbroken.symm.trans hverdict' with hviolation
    injection hviolation with hindex
    exact ⟨i, hindex ▸ hlt, hwork⟩

end Chain

end MinedChain
