import MinedChain.Proofs.Calls
import MinedChain.Proofs.Settings

/-!
# Settings that are refused

Settings are checked on their own, against a hasher, and wherever a chain is made from them. These checks
give one verdict, and the same cause, so that one can be relied on for another. There is one exception: a
chain on a built-in algorithm looks for the algorithm before anything else, while the check of the settings
alone begins with the difficulty. Where both are at fault, the two name different causes.
-/

namespace MinedChain

/-! ## Checks of settings -/

namespace Config

variable {config : Config} {hasher : Hasher} {a : Algorithm}

/-- With the algorithm that they name, settings are checked as they are on their own. -/
theorem validateFor_hasher (h : config.algorithm = .ok a) :
    config.validateFor a.hasher = config.validate := by
  have hnames : config.Names a.hasher.id := names_hasher_iff.mpr h
  rw [validateFor_eq, validate_eq, algorithm_eq_ok_iff.mp h, if_pos hnames]

/-- A built-in algorithm with which settings pass is the one that they name. -/
theorem algorithm_of_validateFor (h : config.validateFor a.hasher = .ok ()) :
    config.algorithm = .ok a :=
  names_hasher_iff.mp (validateFor_eq_ok_iff.mp h).2

theorem algorithm_of_ofId?_eq_none (h : Algorithm.ofId? config.hashAlgorithm = none) :
    config.algorithm = .error (.unknownAlgorithm config.hashAlgorithm) := by
  rw [algorithm, h]

/-- Settings that name no built-in algorithm are refused for that, if not for their difficulty. -/
theorem validate_of_ofId?_eq_none (h : Algorithm.ofId? config.hashAlgorithm = none) :
    config.validate =
      if config.difficulty.toNat ≤ digestBits then .error (.unknownAlgorithm config.hashAlgorithm)
      else .error (.difficultyTooHigh config.difficulty) := by
  rw [validate_eq, h]

/-- Settings pass on their own exactly if they pass with some built-in algorithm. -/
theorem validate_eq_ok_iff :
    config.validate = .ok () ↔ ∃ a : Algorithm, config.validateFor a.hasher = .ok () := by
  constructor
  · intro h
    cases hnamed : Algorithm.ofId? config.hashAlgorithm with
    | some a => exact ⟨a, (validateFor_hasher (algorithm_eq_ok_iff.mpr hnamed)).trans h⟩
    | none =>
      rw [validate_of_ofId?_eq_none hnamed] at h
      split at h <;> contradiction
  · rintro ⟨a, ha⟩
    rw [← validateFor_hasher (algorithm_of_validateFor ha), ha]

end Config

namespace Chain

variable {config : Config} {hasher : Hasher} {e : ConfigError}

/-! ## Chains under a hasher -/

/-- A new chain is refused for its settings exactly as they are refused with the hasher. -/
theorem result_create_eq_config_iff :
    (create config hasher).result = .error (.config e) ↔ config.validateFor hasher = .error e := by
  rw [← Rules.of_eq_error_iff_validateFor, result_create]
  cases Rules.of config hasher with
  | error e' => rw [Except.error.injEq, Except.error.injEq, ChainError.config.injEq]
  | ok r =>
    dsimp only
    cases r.genesisContents.mined r.work r.hasher <;> simp [Except.map, Except.mapError]

/-- Once its settings pass, a new chain fails only because its genesis block is not mined. -/
theorem error_of_result_create {cause : ChainError} (h : config.validateFor hasher = .ok ())
    (hresult : (create config hasher).result = .error cause) :
    cause = .mining (.exhausted (config.maxAttempts.getD maxWord)) := by
  obtain ⟨r, hrules⟩ := Rules.exists_of_validateFor h
  rw [result_create, hrules] at hresult
  dsimp only at hresult
  cases hmined : r.genesisContents.mined r.work r.hasher with
  | ok b =>
    rw [hmined] at hresult
    contradiction
  | error e =>
    obtain ⟨rfl, -⟩ := Contents.mined_eq_error_iff.mp hmined
    rw [hmined, r.limit_work, (Rules.of_eq_ok hrules).1] at hresult
    injection hresult with hresult
    exact hresult.symm

/-- Blocks from elsewhere are refused for the settings exactly as these are refused with the hasher. -/
theorem ofBlocks_eq_config_iff {bs : List Block} :
    ofBlocks config hasher bs = .error (.config e) ↔ config.validateFor hasher = .error e := by
  rw [← Rules.of_eq_error_iff_validateFor, ofBlocks]
  cases Rules.of config hasher with
  | error e' => rw [Except.error.injEq, Except.error.injEq, ChainError.config.injEq]
  | ok r =>
    dsimp only
    split <;> simp

/-- Once the settings pass, blocks from elsewhere are refused only if there are none. -/
theorem ofBlocks_eq_error_iff {bs : List Block} {cause : ChainError}
    (h : config.validateFor hasher = .ok ()) :
    ofBlocks config hasher bs = .error cause ↔ cause = .emptyChain ∧ bs = [] := by
  obtain ⟨r, hrules⟩ := Rules.exists_of_validateFor h
  rw [ofBlocks, hrules]
  dsimp only
  split
  next hbs => simp [hbs, eq_comm]
  next hbs => simp [hbs]

/-! ## Chains on a built-in algorithm -/

/-- A new chain on the algorithm that the settings name is refused for them exactly as they are refused. -/
theorem result_ofConfig_eq_config_iff {a : Algorithm} (h : config.algorithm = .ok a) :
    (ofConfig config).result = .error (.config e) ↔ config.validate = .error e := by
  rw [ofConfig_of_algorithm h, result_create_eq_config_iff, Config.validateFor_hasher h]

theorem result_ofConfig_of_ofId?_eq_none (h : Algorithm.ofId? config.hashAlgorithm = none) :
    (ofConfig config).result = .error (.config (.unknownAlgorithm config.hashAlgorithm)) := by
  rw [ofConfig, Config.algorithm_of_ofId?_eq_none h]

/-- Settings pass on their own exactly if no chain on a built-in algorithm is refused for them. -/
theorem validate_eq_ok_iff_ofConfig :
    config.validate = .ok () ↔ ∀ e, (ofConfig config).result ≠ .error (.config e) := by
  cases hnamed : Algorithm.ofId? config.hashAlgorithm with
  | some a =>
    have halgorithm : config.algorithm = .ok a := Config.algorithm_eq_ok_iff.mpr hnamed
    simp only [ne_eq, result_ofConfig_eq_config_iff halgorithm]
    cases config.validate <;> simp
  | none =>
    have hrefused := result_ofConfig_of_ofId?_eq_none hnamed
    rw [Config.validate_of_ofId?_eq_none hnamed]
    refine iff_of_false ?_ fun h => h _ hrefused
    split <;> simp

/-- The checks of settings tell whether a chain can be made from them, and why not. Settings pass on their
own exactly if a chain on a built-in algorithm is not refused for them, and exactly if they pass with some
built-in algorithm, which then is the one that they name and no other. If they do not pass, the chain is
refused for the same cause, unless both the difficulty and the identifier are at fault: then the check names
the difficulty and the chain the identifier. With a hasher, a new chain and one of blocks from elsewhere are
refused for the settings exactly if these do not pass with it, and for the same cause. If they pass, all that
can fail is mining the genesis block, or that there are no blocks. -/
theorem checks_predict_refusals (config : Config) :
    (config.validate = .ok () ↔ ∀ e, (ofConfig config).result ≠ .error (.config e)) ∧
    (config.validate = .ok () ↔ ∃ a : Algorithm, config.validateFor a.hasher = .ok ()) ∧
    (∀ a : Algorithm, config.validateFor a.hasher = .ok () →
      config.algorithm = .ok a ∧ ∀ b : Algorithm, config.validateFor b.hasher = .ok () → b = a) ∧
    (digestBits < config.difficulty.toNat → Algorithm.ofId? config.hashAlgorithm = none →
      config.validate = .error (.difficultyTooHigh config.difficulty) ∧
      (ofConfig config).result = .error (.config (.unknownAlgorithm config.hashAlgorithm))) ∧
    (∀ e, config.validate = .error e →
      (ofConfig config).result = .error (.config e) ∨
        digestBits < config.difficulty.toNat ∧ Algorithm.ofId? config.hashAlgorithm = none) ∧
    (∀ hasher e,
      ((create config hasher).result = .error (.config e) ↔ config.validateFor hasher = .error e) ∧
      ∀ bs, ofBlocks config hasher bs = .error (.config e) ↔ config.validateFor hasher = .error e) ∧
    (∀ hasher, config.validateFor hasher = .ok () →
      (∀ cause, (create config hasher).result = .error cause →
        ∃ attempts, cause = .mining (.exhausted attempts)) ∧
      ∀ bs cause, ofBlocks config hasher bs = .error cause ↔ cause = .emptyChain ∧ bs = []) := by
  refine ⟨validate_eq_ok_iff_ofConfig, Config.validate_eq_ok_iff, ?_, ?_, ?_, ?_, ?_⟩
  · intro a ha
    have hnamed := Config.algorithm_of_validateFor ha
    refine ⟨hnamed, fun b hb => ?_⟩
    have hnamed' := Config.algorithm_of_validateFor hb
    rw [hnamed] at hnamed'
    injection hnamed'.symm
  · intro hgt hunknown
    rw [Config.validate_of_ofId?_eq_none hunknown, if_neg (Nat.not_le.mpr hgt)]
    exact ⟨rfl, result_ofConfig_of_ofId?_eq_none hunknown⟩
  · intro e he
    cases hnamed : Algorithm.ofId? config.hashAlgorithm with
    | some a =>
      left
      exact (result_ofConfig_eq_config_iff (Config.algorithm_eq_ok_iff.mpr hnamed)).mpr he
    | none =>
      rw [Config.validate_of_ofId?_eq_none hnamed] at he
      split at he
      next hle =>
        left
        injection he with he
        rw [← he, result_ofConfig_of_ofId?_eq_none hnamed]
      next hgt => exact .inr ⟨Nat.not_le.mp hgt, rfl⟩
  · exact fun hasher e => ⟨result_create_eq_config_iff, fun bs => ofBlocks_eq_config_iff⟩
  · intro hasher h
    exact ⟨fun cause hresult => ⟨_, error_of_result_create h hresult⟩,
      fun bs cause => ofBlocks_eq_error_iff h⟩

/-- Settings with two faults are refused for one by the check and for the other by the chain, settings with
one fault for that one by both, and those of a built-in algorithm in another spelling for none. -/
theorem two_faults_told_apart :
    let faulty : Config := { difficulty := 300, hashAlgorithm := "md5" }
    let wide : Config := { difficulty := 300, hashAlgorithm := "SHA256D" }
    let usual : Config := { difficulty := 256, hashAlgorithm := "Double-SHA256", maxAttempts := some 0 }
    let hasher := Algorithm.doubleSha256.hasher
    faulty.validate = .error (.difficultyTooHigh 300) ∧
      (ofConfig faulty).result = .error (.config (.unknownAlgorithm "md5")) ∧
      (ofConfig wide).result = .error (.config (.difficultyTooHigh 300)) ∧
      usual.algorithm = .ok .doubleSha256 ∧
      ofBlocks usual hasher [] = .error .emptyChain := by
  intro faulty wide usual hasher
  obtain ⟨-, -, -, hboth, -⟩ := checks_predict_refusals faulty
  obtain ⟨-, -, -, -, hsame, -⟩ := checks_predict_refusals wide
  obtain ⟨-, -, hnamed, -, -, -, hpass⟩ := checks_predict_refusals usual
  have hchecked : usual.validateFor hasher = .ok () :=
    Config.validateFor_eq_ok_iff.mpr ⟨by decide, by decide⟩
  obtain ⟨hvalidate, hresult⟩ := hboth (by decide) (by decide)
  refine ⟨hvalidate, hresult, ?_, (hnamed .doubleSha256 hchecked).1, ?_⟩
  · rcases hsame (.difficultyTooHigh 300) (by rfl) with h | h
    · exact h
    · exact absurd h.2 (by decide)
  · exact ((hpass hasher hchecked).2 [] .emptyChain).mpr ⟨rfl, rfl⟩

end Chain

end MinedChain
