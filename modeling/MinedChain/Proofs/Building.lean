import MinedChain.Proofs.Growth
import MinedChain.Proofs.History
import MinedChain.Proofs.Settings

/-!
# Chains that can be built

Validation does not look at everything that building a chain ensures: blocks may be valid although their
times go back or their nonces are not the lowest. With these two conditions added, a chain is valid
exactly if it can be built, and then one knows how: each block answers a call with its own payload and
time. One step of this is `Chain.IsBuilt.push`, and `Chain.IsBuilt.answer_of_push` takes it back; both
rest on what one more block needs, `Chain.isBuilt_push_iff`.
-/

namespace MinedChain.Chain

/-- The chain is valid, its times do not go back, and every nonce is the lowest below the ceiling. -/
structure IsBuilt (c : Chain) : Prop where
  valid : c.validate.result = .ok ()
  timestamps : c.blocks.Pairwise (·.timestamp ≤ ·.timestamp)
  nonces : ∀ b ∈ c.blocks, b.HasLowestNonce c.rules.work c.rules.hasher

/-! ## Genesis blocks -/

/-- A block is a chain that can be built exactly if it is what mining the genesis contents gives. -/
theorem isBuilt_single_iff {r : Rules} {b : Block} :
    (single r b).IsBuilt ↔ r.genesisContents.mined r.work r.hasher = .ok b := by
  constructor
  · intro h
    have hfits : r.Fits 0 none b := Rules.valid_singleton_iff.mp (result_validate_eq_ok_iff.mp h.valid)
    have hgenesis : b.toContents = r.genesisContents :=
      Rules.linkDefect?_none_eq_none_iff.mp hfits.link
    exact Contents.mined_eq_ok_iff.mpr ⟨hgenesis, hfits.digest, h.nonces b List.mem_cons_self⟩
  · intro h
    obtain ⟨hgenesis, hdigest, hnonce⟩ := Contents.mined_eq_ok_iff.mp h
    have hfits : r.Fits 0 none b := by
      refine ⟨Rules.linkDefect?_none_eq_none_iff.mpr hgenesis, ?_, hdigest, ?_⟩
      · rw [hgenesis]
        rfl
      · rw [← hdigest]
        exact hnonce.meets
    refine ⟨result_validate_eq_ok_iff.mpr (Rules.valid_singleton_iff.mpr hfits),
      List.pairwise_singleton _ _, ?_⟩
    intro b' hb'
    rw [List.mem_singleton.mp hb']
    exact hnonce

/-! ## One more block -/

/-- No block is later than the tip. -/
theorem IsBuilt.timestamp_le_tip {c : Chain} (h : c.IsBuilt) {b : Block} (hb : b ∈ c.blocks) :
    b.timestamp ≤ c.tip.timestamp := by
  have htimestamps := h.timestamps
  rw [← c.dropLast_concat_tip, List.pairwise_append] at htimestamps
  rw [← c.dropLast_concat_tip, List.mem_append] at hb
  rcases hb with hb | hb
  · exact htimestamps.2.2 b hb c.tip List.mem_cons_self
  · rw [List.mem_singleton.mp hb]
    exact UInt64.le_refl _

/-- What one more block needs for the chain to be one that can be built. -/
theorem isBuilt_push_iff {c : Chain} {b : Block} :
    (c.push b).IsBuilt ↔
      c.IsBuilt ∧
      c.rules.Fits (UInt64.ofNat c.length) (some c.tip) b ∧
      c.tip.timestamp ≤ b.timestamp ∧
      b.HasLowestNonce c.rules.work c.rules.hasher := by
  constructor
  · intro h
    obtain ⟨hvalid, htimestamps, hnonces⟩ := h
    obtain ⟨hblocks, hfits⟩ := valid_push_iff.mp (result_validate_eq_ok_iff.mp hvalid)
    rw [blocks_push, List.pairwise_append] at htimestamps
    obtain ⟨hsorted, -, hlast⟩ := htimestamps
    have hbuilt : c.IsBuilt :=
      ⟨result_validate_eq_ok_iff.mpr hblocks, hsorted,
        fun x hx => hnonces x (List.mem_append_left _ hx)⟩
    have htimestamp : c.tip.timestamp ≤ b.timestamp :=
      hlast c.tip (List.getLast_mem c.blocks_ne_nil) b List.mem_cons_self
    exact ⟨hbuilt, hfits, htimestamp, hnonces b List.mem_concat_self⟩
  · intro h
    obtain ⟨hbuilt, hfits, htimestamp, hnonce⟩ := h
    have hblocks : c.rules.Valid c.blocks := result_validate_eq_ok_iff.mp hbuilt.valid
    refine ⟨result_validate_eq_ok_iff.mpr (valid_push_iff.mpr ⟨hblocks, hfits⟩), ?_, ?_⟩
    · rw [blocks_push, List.pairwise_append]
      refine ⟨hbuilt.timestamps, List.pairwise_singleton _ _, ?_⟩
      intro a ha x hx
      rw [List.mem_singleton.mp hx]
      exact UInt64.le_trans (hbuilt.timestamp_le_tip ha) htimestamp
    · intro x hx
      rw [blocks_push, List.mem_append] at hx
      rcases hx with hx | hx
      · exact hbuilt.nonces x hx
      · rw [List.mem_singleton.mp hx]
        exact hnonce

/-- A block that a call is granted leaves a chain that can be built. -/
theorem IsBuilt.push {c : Chain} (h : c.IsBuilt) {q : Request} {b : Block} (ha : c.answer q = .ok b) :
    (c.push b).IsBuilt := by
  have hvalid : c.rules.Valid c.blocks := result_validate_eq_ok_iff.mp h.valid
  obtain ⟨-, hmined⟩ := answer_eq_ok_iff.mp ha
  obtain ⟨hcontents, -, hnonce⟩ := Contents.mined_eq_ok_iff.mp hmined
  have hfits : c.rules.Fits (UInt64.ofNat c.length) (some c.tip) b := fits_of_answer_eq_ok hvalid ha
  have htimestamp : c.tip.timestamp ≤ b.timestamp := by
    rw [hcontents]
    show c.tip.timestamp ≤ max q.timestamp c.tip.timestamp
    rw [UInt64.le_iff_toNat_le, toNat_max]
    exact Nat.le_max_right _ _
  exact isBuilt_push_iff.mpr ⟨h, hfits, htimestamp, hnonce⟩

/-- The last block of a chain that can be built answers a call on the others, with its own payload and
time. -/
theorem IsBuilt.answer_of_push {c : Chain} {b : Block} (h : (c.push b).IsBuilt)
    (hlength : c.length < 2 ^ 64) : c.answer (.appendAt b.payload b.timestamp) = .ok b := by
  obtain ⟨hbuilt, hfits, htimestamp, hnonce⟩ := isBuilt_push_iff.mp h
  have hvalid : c.rules.Valid c.blocks := result_validate_eq_ok_iff.mp hbuilt.valid
  have hindex : c.tip.index + 1 = b.index := by
    rw [hfits.index]
    exact index_tip_add_one_of_valid hvalid
  have hmax : max b.timestamp c.tip.timestamp = b.timestamp := by
    rw [← UInt64.toNat_inj, toNat_max]
    exact Nat.max_eq_left htimestamp
  have hlink : b.previousDigest = c.tip.digest := Rules.linkDefect?_some_eq_none_iff.mp hfits.link
  have hcandidate : c.candidate (.appendAt b.payload b.timestamp) = b.toContents := by
    show Contents.mk (c.tip.index + 1) (max b.timestamp c.tip.timestamp) b.payload c.tip.digest = _
    rw [hindex, hmax, ← hlink]
  rw [answer_eq_ok_iff, hcandidate, Contents.mined_eq_ok_iff]
  exact ⟨index_tip_ne_maxWord_of_valid hvalid hlength, rfl, hfits.digest, hnonce⟩

/-! ## Runs and replays -/

theorem IsBuilt.run {c : Chain} (h : c.IsBuilt) (qs : List Request) : (c.run qs).IsBuilt :=
  run_induction (fun _ _ _ h ha => h.push ha) h qs

/-- The calls with the payloads and the times of the blocks. -/
def replay (bs : List Block) : List Request := bs.map fun b => .appendAt b.payload b.timestamp

/-- The chain with some more blocks. -/
def pushAll (c : Chain) (bs : List Block) : Chain := bs.foldl push c

theorem pushAll_cons (c : Chain) (b : Block) (bs : List Block) :
    c.pushAll (b :: bs) = (c.push b).pushAll bs := rfl

@[simp] theorem blocks_pushAll (c : Chain) (bs : List Block) :
    (c.pushAll bs).blocks = c.blocks ++ bs := by
  induction bs generalizing c with
  | nil => exact (List.append_nil _).symm
  | cons b bs ih => rw [pushAll_cons, ih, blocks_push, List.append_assoc, List.singleton_append]

@[simp] theorem rules_pushAll (c : Chain) (bs : List Block) : (c.pushAll bs).rules = c.rules := by
  induction bs generalizing c with
  | nil => rfl
  | cons b bs ih => rw [pushAll_cons, ih, rules_push]

theorem IsBuilt.of_pushAll {c : Chain} {bs : List Block} (h : (c.pushAll bs).IsBuilt) : c.IsBuilt := by
  induction bs generalizing c with
  | nil => exact h
  | cons b bs ih => exact (isBuilt_push_iff.mp (ih h)).1

/-- The blocks by which a chain that can be built goes on are the answers to calls with their payloads
and times. -/
theorem IsBuilt.replay_of_pushAll {c : Chain} {bs : List Block} (h : (c.pushAll bs).IsBuilt)
    (hlength : c.length + bs.length < 2 ^ 64) :
    c.answers (replay bs) = bs.map .ok ∧ c.run (replay bs) = c.pushAll bs := by
  induction bs generalizing c with
  | nil => exact ⟨rfl, rfl⟩
  | cons b bs ih =>
    rw [List.length_cons] at hlength
    have hpush : (c.push b).IsBuilt := IsBuilt.of_pushAll h
    have ha : c.answer (.appendAt b.payload b.timestamp) = .ok b := hpush.answer_of_push (by omega)
    obtain ⟨hanswers, hrun⟩ := ih h (by rw [length_push]; omega)
    rw [replay, List.map_cons, ← replay]
    constructor
    · rw [answers, ha, after_of_answer_eq_ok ha, hanswers]
      rfl
    · rw [run_cons, after_of_answer_eq_ok ha, hrun, pushAll_cons]

/-- A chain is its genesis block with the other blocks behind it. -/
theorem exists_eq_pushAll (c : Chain) :
    ∃ b, c = (single c.rules b).pushAll c.blocks.tail := by
  obtain ⟨b, hblocks⟩ : ∃ b, c.blocks = b :: c.blocks.tail :=
    ⟨c.genesis, (List.cons_head_tail c.blocks_ne_nil).symm⟩
  refine ⟨b, Chain.ext ?_ ?_⟩
  · rw [rules_pushAll]
    rfl
  · rw [blocks_pushAll]
    exact hblocks

/-- Whatever calls are made on a new chain, each of which may succeed or fail, the chain is valid, its
times do not go back, and every nonce is the lowest below the ceiling of the settings. Conversely, fewer
than `2 ^ 64` blocks that are wrapped under the same settings and hasher, and of which all this holds,
are what a new chain comes to by calls with their payloads and times: each call is answered by its
block. -/
theorem isBuilt_characterizes_runs (config : Config) (hasher : Hasher) :
    (∀ c₀, (create config hasher).result = .ok c₀ → ∀ qs,
      (c₀.run qs).IsBuilt ∧
      (c₀.run qs).rules.hasher = hasher ∧
      (c₀.run qs).rules.work.difficulty = config.difficulty ∧
      (c₀.run qs).rules.work.limit = config.maxAttempts.getD maxWord) ∧
    (∀ bs c, bs.length < 2 ^ 64 → ofBlocks config hasher bs = .ok c → c.IsBuilt →
      ∃ c₀, (create config hasher).result = .ok c₀ ∧
        c₀.answers (replay bs.tail) = bs.tail.map .ok ∧
        c₀.run (replay bs.tail) = c) := by
  constructor
  · intro c₀ h qs
    obtain ⟨hrules, b, hgenesis, hc₀⟩ := result_create_eq_ok_iff.mp h
    obtain ⟨hconfig, hhasher⟩ := Rules.of_eq_ok hrules
    have hbuilt : c₀.IsBuilt := by
      rw [hc₀]
      exact isBuilt_single_iff.mpr hgenesis
    rw [rules_run, Rules.difficulty_work, Rules.limit_work, hconfig]
    exact ⟨hbuilt.run qs, hhasher, rfl, rfl⟩
  · intro bs c hlength hwrapped hbuilt
    obtain ⟨hrules, hblocks⟩ := ofBlocks_eq_ok_iff.mp hwrapped
    obtain ⟨b, hc⟩ := c.exists_eq_pushAll
    have htail : (single c.rules b).length + bs.tail.length < 2 ^ 64 := by
      have hpos := c.length_pos
      have hone : (single c.rules b).length = 1 := rfl
      rw [length, hblocks] at hpos
      rw [hone, List.length_tail]
      omega
    rw [hblocks] at hc
    rw [hc] at hbuilt
    have hgenesis := isBuilt_single_iff.mp hbuilt.of_pushAll
    obtain ⟨hanswers, hrun⟩ := hbuilt.replay_of_pushAll htail
    refine ⟨single c.rules b, result_create_eq_ok_iff.mpr ⟨hrules, b, hgenesis, rfl⟩, hanswers, ?_⟩
    rw [hrun, ← hc]

/-- A genesis block and one more, both of nonce two, are built by one call. -/
theorem nonceTwo_replayed :
    ∃ c₀, (create Rules.nonceTwo.config Rules.nonceTwo.hasher).result = .ok c₀ ∧
      c₀.answers [.appendAt [] 5] = [.ok (nonceTwo 1).tip] ∧
      c₀.run [.appendAt [] 5] = nonceTwo 1 := by
  have hwrapped : ofBlocks Rules.nonceTwo.config Rules.nonceTwo.hasher
      (nonceTwo 1).blocks = .ok (nonceTwo 1) := ofBlocks_eq_ok_iff.mpr ⟨Rules.of_config_hasher _, rfl⟩
  have hbuilt : (nonceTwo 1).IsBuilt := by
    refine ⟨by rfl, by decide, ?_⟩
    intro b hb
    have hnonces : ∀ b ∈ (nonceTwo 1).blocks, b.nonce = 2 := by decide
    exact Block.hasLowestNonce_onSuffix (hnonces b hb) (by decide) (by decide) (by decide)
  exact (isBuilt_characterizes_runs _ _).2 _ _ (by decide) hwrapped hbuilt

end MinedChain.Chain
