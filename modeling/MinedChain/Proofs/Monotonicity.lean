import MinedChain.Proofs.SearchBound
import MinedChain.Proofs.SearchChoice
import MinedChain.Proofs.Verdict

/-!
# Higher ceilings and lower difficulties

A search that succeeds does so at the lowest nonce that hits, and below a bound that its ceiling sets.
A higher ceiling moves the bound up and leaves the lowest hit where it is; a lower difficulty lets more
nonces hit, so that the lowest of them may come earlier but not later. This is said once for a lowest
hit, `IsLowestHit`, and both searches answer with one. Along a run of calls it follows that what has
succeeded under one ceiling succeeds under every higher one, with the same blocks.
-/

namespace MinedChain

/-- What meets a difficulty meets every lower one. -/
theorem Digest.Meets.mono {d : Digest} {difficulty difficulty' : UInt32} (h : d.Meets difficulty)
    (hle : difficulty' ≤ difficulty) : d.Meets difficulty' :=
  ⟨Nat.le_trans hle h.1, Nat.le_trans hle h.2⟩

/-! ## The two searches -/

namespace Work

variable {work work' : Work} {hasher : Hasher} {u : UnsealedBlock} {b : Block} {start : UInt64}

theorem reach_mono (h : work.limit ≤ work'.limit) : work.reach start ≤ work'.reach start := by
  have hle : work.limit.toNat ≤ work'.limit.toNat := h
  unfold reach
  omega

theorem rangeEnd_mono (h : work.limit ≤ work'.limit) :
    (work.rangeEnd start).toNat ≤ (work'.rangeEnd start).toNat := by
  have hle : work.limit.toNat ≤ work'.limit.toNat := h
  rw [toNat_rangeEnd, toNat_rangeEnd]
  omega

/-- A higher ceiling does not change a result. -/
theorem mine_eq_ok_of_limit_le (hdifficulty : work'.difficulty = work.difficulty)
    (hlimit : work.limit ≤ work'.limit) (h : (work.mine hasher u).result = .ok b) :
    (work'.mine hasher u).result = .ok b := by
  obtain ⟨n, hn, hb⟩ := result_mine_eq_ok_iff.mp h
  rw [result_mine_eq_ok_iff, hdifficulty]
  exact ⟨n, hn.mono_bound (Nat.add_le_add_left (reach_mono hlimit) _), hb⟩

theorem mineRange_eq_ok_of_limit_le (hdifficulty : work'.difficulty = work.difficulty)
    (hlimit : work.limit ≤ work'.limit) (h : (work.mineRange hasher u).result = .ok b) :
    (work'.mineRange hasher u).result = .ok b := by
  obtain ⟨n, hn, hb⟩ := result_mineRange_eq_ok_iff.mp h
  rw [result_mineRange_eq_ok_iff, hdifficulty]
  exact ⟨n, hn.mono_bound (rangeEnd_mono hlimit), hb⟩

/-- Under a lower difficulty a search succeeds as well, and not later. -/
theorem mine_eq_ok_of_difficulty_le (hdifficulty : work'.difficulty ≤ work.difficulty)
    (hlimit : work'.limit = work.limit) (h : (work.mine hasher u).result = .ok b) :
    ∃ b', (work'.mine hasher u).result = .ok b' ∧ b'.nonce ≤ b.nonce := by
  obtain ⟨n, hn, rfl⟩ := result_mine_eq_ok_iff.mp h
  have hreach : work.reach u.nonce = work'.reach u.nonce := by
    rw [reach, reach, hlimit]
  rw [hreach] at hn
  obtain ⟨n', hle, hn'⟩ := hn.mono_hit fun _ hmeets => hmeets.mono hdifficulty
  exact ⟨_, result_mine_eq_ok_iff.mpr ⟨n', hn', rfl⟩, hle⟩

theorem mineRange_eq_ok_of_difficulty_le (hdifficulty : work'.difficulty ≤ work.difficulty)
    (hlimit : work'.limit = work.limit) (h : (work.mineRange hasher u).result = .ok b) :
    ∃ b', (work'.mineRange hasher u).result = .ok b' ∧ b'.nonce ≤ b.nonce := by
  obtain ⟨n, hn, rfl⟩ := result_mineRange_eq_ok_iff.mp h
  have hend : (work.rangeEnd u.nonce).toNat = (work'.rangeEnd u.nonce).toNat := by
    rw [toNat_rangeEnd, toNat_rangeEnd, hlimit]
  rw [hend] at hn
  obtain ⟨n', hle, hn'⟩ := hn.mono_hit fun _ hmeets => hmeets.mono hdifficulty
  exact ⟨_, result_mineRange_eq_ok_iff.mpr ⟨n', hn', rfl⟩, hle⟩

end Work

/-! ## Another ceiling in the settings -/

/-- The settings with another ceiling on attempts. -/
def Config.withCeiling (config : Config) (ceiling : Option UInt64) : Config :=
  { config with maxAttempts := ceiling }

/-- Whether settings are accepted does not hang on the ceiling. -/
theorem Config.workFor_withCeiling {config : Config} {hasher : Hasher} {work : Work}
    (h : config.workFor hasher = .ok work) (ceiling : Option UInt64) :
    (config.withCeiling ceiling).workFor hasher = .ok { work with maxAttempts := ceiling } := by
  obtain ⟨hnames, hdifficulty, -⟩ := workFor_eq_ok_iff.mp h
  exact workFor_eq_ok_iff.mpr ⟨hnames, hdifficulty, rfl⟩

/-- The rules with another ceiling on attempts. -/
def Rules.withCeiling (r : Rules) (ceiling : Option UInt64) : Rules where
  hasher := r.hasher
  config := r.config.withCeiling ceiling
  work := { r.work with maxAttempts := ceiling }
  accepted := Config.workFor_withCeiling r.accepted ceiling

/-- The same blocks under rules with another ceiling. -/
def Chain.withCeiling (c : Chain) (ceiling : Option UInt64) : Chain where
  rules := c.rules.withCeiling ceiling
  blocks := c.blocks
  blocks_ne_nil := c.blocks_ne_nil

/-- What is mined below a ceiling is mined below every higher one. -/
theorem Contents.mined_eq_ok_of_limit_le {c : Contents} {work work' : Work} {hasher : Hasher}
    {b : Block} (hdifficulty : work'.difficulty = work.difficulty)
    (hlimit : work.limit ≤ work'.limit) (h : c.mined work hasher = .ok b) :
    c.mined work' hasher = .ok b := by
  rw [← Work.result_mine_ofContents] at h ⊢
  exact Work.mine_eq_ok_of_limit_le hdifficulty hlimit h

namespace Chain

variable {c : Chain} {ceiling : Option UInt64}

theorem answer_withCeiling {q : Request} {b : Block}
    (hlimit : c.rules.work.limit ≤ ceiling.getD maxWord) (h : c.answer q = .ok b) :
    (c.withCeiling ceiling).answer q = .ok b := by
  obtain ⟨htip, hmined⟩ := answer_eq_ok_iff.mp h
  have hdifficulty : (c.withCeiling ceiling).rules.work.difficulty = c.rules.work.difficulty := rfl
  exact answer_eq_ok_iff.mpr ⟨htip, Contents.mined_eq_ok_of_limit_le hdifficulty hlimit hmined⟩

/-- A run all of whose calls are granted is the same under a higher ceiling. -/
theorem run_withCeiling {qs : List Request} (hlimit : c.rules.work.limit ≤ ceiling.getD maxWord)
    (hgranted : ∀ a ∈ c.answers qs, ∃ b, a = .ok b) :
    (c.withCeiling ceiling).answers qs = c.answers qs ∧
      (c.withCeiling ceiling).run qs = (c.run qs).withCeiling ceiling := by
  induction qs generalizing c with
  | nil => exact ⟨rfl, rfl⟩
  | cons q qs ih =>
    rw [answers, List.forall_mem_cons] at hgranted
    obtain ⟨⟨b, hb⟩, hrest⟩ := hgranted
    have hb' := answer_withCeiling hlimit hb
    -- the same block is granted first, so the calls behind it start from the same chain
    rw [after_of_answer_eq_ok hb] at hrest
    have hlimit' : (c.push b).rules.work.limit ≤ ceiling.getD maxWord := hlimit
    obtain ⟨hanswers, hrun⟩ := ih hlimit' hrest
    rw [answers, answers, run_cons, run_cons, hb, hb', after_of_answer_eq_ok hb,
      after_of_answer_eq_ok hb']
    exact ⟨congrArg (Except.ok b :: ·) hanswers, hrun⟩

end Chain

theorem Origin.make_withCeiling {origin : Origin} {config : Config} {hasher : Hasher} {c : Chain}
    {ceiling : Option UInt64} (hlimit : config.maxAttempts.getD maxWord ≤ ceiling.getD maxWord)
    (h : origin.make config hasher = .ok c) :
    c.rules.work.limit ≤ ceiling.getD maxWord ∧
      origin.make (config.withCeiling ceiling) hasher = .ok (c.withCeiling ceiling) := by
  have hmade : ∀ r, Rules.of config hasher = .ok r →
      r.work.limit ≤ ceiling.getD maxWord ∧
        Rules.of (config.withCeiling ceiling) hasher = .ok (r.withCeiling ceiling) := by
    intro r hr
    obtain ⟨rfl, rfl⟩ := Rules.of_eq_ok hr
    rw [Rules.limit_work]
    exact ⟨hlimit, Rules.of_config_hasher (r.withCeiling ceiling)⟩
  cases origin with
  | mined =>
    obtain ⟨hrules, b, hgenesis, hc⟩ := Chain.result_create_eq_ok_iff.mp h
    obtain ⟨hlimit', hrules'⟩ := hmade c.rules hrules
    have hdifficulty : (c.rules.withCeiling ceiling).work.difficulty = c.rules.work.difficulty := rfl
    have hgenesis' := Contents.mined_eq_ok_of_limit_le hdifficulty hlimit' hgenesis
    refine ⟨hlimit', Chain.result_create_eq_ok_iff.mpr ⟨hrules', b, hgenesis', ?_⟩⟩
    rw [hc]
    rfl
  | wrapped blocks =>
    obtain ⟨hrules, hblocks⟩ := Chain.ofBlocks_eq_ok_iff.mp h
    obtain ⟨hlimit', hrules'⟩ := hmade c.rules hrules
    exact ⟨hlimit', Chain.ofBlocks_eq_ok_iff.mpr ⟨hrules', hblocks⟩⟩

/-- Success is kept by higher ceilings and lower difficulties. A search, whichever of the two it is and
whatever block it starts from, that succeeds below a ceiling gives the same block below every higher
one, and under a lower difficulty a block of the same or a lower nonce. So a chain that is made under a
ceiling, be it mined or wrapped, and that then grants a sequence of calls, is made and grants them under
every higher ceiling and under none, with the same blocks. -/
theorem success_kept_by_easier_work :
    (∀ search ∈ [Work.mine, Work.mineRange], ∀ (work work' : Work) (hasher : Hasher)
        (u : UnsealedBlock) (b : Block), (search work hasher u).result = .ok b →
      (work'.difficulty = work.difficulty → work.limit ≤ work'.limit →
        (search work' hasher u).result = .ok b) ∧
      (work'.difficulty ≤ work.difficulty → work'.limit = work.limit →
        ∃ b', (search work' hasher u).result = .ok b' ∧ b'.nonce ≤ b.nonce)) ∧
    (∀ (origin : Origin) (config : Config) (hasher : Hasher) (ceiling : Option UInt64)
        (qs : List Request) (c : Chain), config.maxAttempts.getD maxWord ≤ ceiling.getD maxWord →
      origin.make config hasher = .ok c → (∀ a ∈ c.answers qs, ∃ b, a = .ok b) →
      ∃ c', origin.make { config with maxAttempts := ceiling } hasher = .ok c' ∧
        c'.answers qs = c.answers qs ∧ (c'.run qs).blocks = (c.run qs).blocks) := by
  constructor
  · intro search hsearch work work' hasher u b h
    simp only [List.mem_cons, List.not_mem_nil, or_false] at hsearch
    rcases hsearch with rfl | rfl
    · exact ⟨fun hd hl => Work.mine_eq_ok_of_limit_le hd hl h,
        fun hd hl => Work.mine_eq_ok_of_difficulty_le hd hl h⟩
    · exact ⟨fun hd hl => Work.mineRange_eq_ok_of_limit_le hd hl h,
        fun hd hl => Work.mineRange_eq_ok_of_difficulty_le hd hl h⟩
  · intro origin config hasher ceiling qs c hlimit hmade hgranted
    obtain ⟨hlimit', hmade'⟩ := Origin.make_withCeiling hlimit hmade
    obtain ⟨hanswers, hrun⟩ := Chain.run_withCeiling hlimit' hgranted
    refine ⟨_, hmade', hanswers, ?_⟩
    rw [hrun]
    rfl

/-- Contents that nonce two seals in the last of three attempts are sealed so without a ceiling as well,
and a chain of two such blocks grows the same. -/
theorem nonceTwo_kept_by_easier_work :
    let r := Rules.nonceTwo.withCeiling (some 3)
    let u := UnsealedBlock.ofContents r.genesisContents r.hasher
    let genesis := r.genesisContents.sealedWith r.hasher 2
    ((Work.mine ⟨8, none, by decide⟩ r.hasher u).result = .ok genesis ∧
      ∃ b, (Work.mineRange ⟨4, some 3, by decide⟩ r.hasher u).result = .ok b ∧ b.nonce ≤ 2) ∧
    ∃ c, Origin.mined.make { r.config with maxAttempts := none } r.hasher = .ok c ∧
      (c.run [.appendAt [] 5]).blocks = ((Chain.single r genesis).run [.appendAt [] 5]).blocks := by
  intro r u genesis
  have hsealed : ∀ c : Contents, c.mined r.work r.hasher = .ok (c.sealedWith r.hasher 2) := by
    intro c
    rw [Contents.mined_eq_ok_iff]
    exact ⟨rfl, rfl, Block.hasLowestNonce_onSuffix rfl (by decide) (by decide) (by decide)⟩
  have hmine : (Work.mine r.work r.hasher u).result = .ok genesis :=
    (Work.result_mine_ofContents _ _ _).trans (hsealed _)
  have hrange : (Work.mineRange r.work r.hasher u).result = .ok genesis :=
    (Work.result_mineRange_ofContents _ _ _).trans (hsealed _)
  have hmade : Origin.mined.make r.config r.hasher = .ok (Chain.single r genesis) :=
    Chain.result_create_eq_ok_iff.mpr ⟨r.of_config_hasher, genesis, hsealed _, rfl⟩
  have hgranted : ∀ a ∈ (Chain.single r genesis).answers [.appendAt [] 5], ∃ b, a = .ok b := by
    intro a ha
    rw [List.mem_singleton.mp ha]
    exact ⟨_, Chain.answer_eq_ok_iff.mpr ⟨by decide, hsealed _⟩⟩
  obtain ⟨hsearches, hchains⟩ := success_kept_by_easier_work
  refine ⟨⟨?_, ?_⟩, ?_⟩
  · exact (hsearches Work.mine (by simp) r.work _ _ _ _ hmine).1 rfl (by decide)
  · exact (hsearches Work.mineRange (by simp) r.work _ _ _ _ hrange).2 (by decide) rfl
  · obtain ⟨c, hc, -, hblocks⟩ := hchains _ _ _ none _ _ (by decide) hmade hgranted
    exact ⟨c, hc, hblocks⟩

end MinedChain
