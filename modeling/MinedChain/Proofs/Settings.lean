import MinedChain.Rules

/-!
# Settings that make rules

Rules hold the settings and the hasher that they were made from, and all else in them is fixed by these
two: whatever rules of given settings and a given hasher there are, they are the ones that the two make.
-/

namespace MinedChain

theorem Config.algorithm_eq_ok_iff {config : Config} {a : Algorithm} :
    config.algorithm = .ok a ↔ Algorithm.ofId? config.hashAlgorithm = some a := by
  rw [algorithm]
  cases Algorithm.ofId? config.hashAlgorithm with
  | none => simp only [reduceCtorEq]
  | some b => rw [Except.ok.injEq, Option.some.injEq]

/-- Settings name a built-in algorithm's hasher if their identifier is recognised as the algorithm's. -/
theorem Config.names_hasher_iff {config : Config} {a : Algorithm} :
    config.Names a.hasher.id ↔ config.algorithm = .ok a := by
  rw [algorithm_eq_ok_iff, Names, a.id_hasher]
  cases hnamed : Algorithm.ofId? config.hashAlgorithm with
  | some b =>
    rw [Option.some.injEq]
    exact ⟨Algorithm.id_injective, congrArg Algorithm.id⟩
  | none =>
    -- the algorithm is recognised under its own identifier, hence in every case
    have hother : foldCase config.hashAlgorithm ≠ foldCase a.id := by
      intro hfold
      rw [Algorithm.ofId?_congr hfold, Algorithm.ofId?_id] at hnamed
      contradiction
    simp only [reduceCtorEq, iff_false]
    exact hother

/-- Settings are accepted with a hasher if a digest can meet the difficulty and they name the hasher, and
then make the work of their own difficulty and ceiling. -/
theorem Config.workFor_eq_ok_iff {config : Config} {hasher : Hasher} {work : Work} :
    config.workFor hasher = .ok work ↔
      config.Names hasher.id ∧ work.difficulty = config.difficulty ∧
        work.maxAttempts = config.maxAttempts := by
  unfold workFor validateFor Config.work Work.ofDifficulty
  by_cases hle : config.difficulty.toNat ≤ digestBits
  · by_cases hnames : config.Names hasher.id
    · rw [dif_pos hle, if_pos hnames, and_iff_right hnames]
      constructor
      · intro h
        injection h with h
        rw [← h]
        exact ⟨rfl, rfl⟩
      · intro h
        cases work
        obtain ⟨rfl, rfl⟩ := h
        rfl
    · rw [dif_pos hle, if_neg hnames]
      exact ⟨fun h => (nomatch h), fun h => absurd h.1 hnames⟩
  · rw [dif_neg hle]
    refine ⟨fun h => (nomatch h), fun h => absurd ?_ hle⟩
    rw [← h.2.1]
    exact work.difficulty_le

/-- Settings are refused for their difficulty first, and then for their identifier. -/
theorem Config.validate_eq (config : Config) :
    config.validate =
      if config.difficulty.toNat ≤ digestBits then
        match Algorithm.ofId? config.hashAlgorithm with
        | some _ => .ok ()
        | none => .error (.unknownAlgorithm config.hashAlgorithm)
      else .error (.difficultyTooHigh config.difficulty) := by
  rw [validate, work, Work.ofDifficulty, algorithm]
  split
  · cases Algorithm.ofId? config.hashAlgorithm <;> rfl
  · rfl

/-- With a hasher, settings are refused for their difficulty first, and then for not naming it. -/
theorem Config.validateFor_eq (config : Config) (hasher : Hasher) :
    config.validateFor hasher =
      if config.difficulty.toNat ≤ digestBits then
        if config.Names hasher.id then .ok ()
        else .error (.algorithmMismatch config.hashAlgorithm hasher.id)
      else .error (.difficultyTooHigh config.difficulty) := by
  rw [validateFor, work, Work.ofDifficulty]
  split <;> rfl

theorem Config.validateFor_eq_ok_iff {config : Config} {hasher : Hasher} :
    config.validateFor hasher = .ok () ↔
      config.difficulty.toNat ≤ digestBits ∧ config.Names hasher.id := by
  rw [validateFor_eq]
  by_cases hle : config.difficulty.toNat ≤ digestBits
  · by_cases hnames : config.Names hasher.id <;> simp [hle, hnames]
  · simp [hle]

/-- Once the settings are checked against the hasher, making the work does not fail. -/
theorem Config.workFor_eq_error_iff {config : Config} {hasher : Hasher} {e : ConfigError} :
    config.workFor hasher = .error e ↔ config.validateFor hasher = .error e := by
  have hrefused (e' : ConfigError) : (Except.error e' : Except ConfigError Work) = .error e ↔
      (Except.error e' : Except ConfigError Unit) = .error e := by
    rw [Except.error.injEq, Except.error.injEq]
  rw [workFor, validateFor_eq]
  by_cases hle : config.difficulty.toNat ≤ digestBits
  · rw [if_pos hle]
    by_cases hnames : config.Names hasher.id
    · rw [if_pos hnames]
      show config.work = .error e ↔ _
      rw [work, Work.ofDifficulty, dif_pos hle]
      exact ⟨nofun, nofun⟩
    · rw [if_neg hnames]
      exact hrefused _
  · rw [if_neg hle]
    exact hrefused _

namespace Rules

theorem difficulty_work (r : Rules) : r.work.difficulty = r.config.difficulty :=
  (Config.workFor_eq_ok_iff.mp r.accepted).2.1

theorem limit_work (r : Rules) : r.work.limit = r.config.maxAttempts.getD maxWord := by
  rw [Work.limit, (Config.workFor_eq_ok_iff.mp r.accepted).2.2]

theorem of_config_hasher (r : Rules) : of r.config r.hasher = .ok r := by
  unfold of
  split
  next work h =>
    obtain rfl : work = r.work := by
      have haccepted := r.accepted
      rw [h] at haccepted
      injection haccepted
    rfl
  next e h => exact nomatch h.symm.trans r.accepted

theorem of_eq_ok_iff {config : Config} {hasher : Hasher} {r : Rules} :
    of config hasher = .ok r ↔ r.config = config ∧ r.hasher = hasher := by
  constructor
  · exact of_eq_ok
  · intro h
    obtain ⟨rfl, rfl⟩ := h
    exact r.of_config_hasher

/-- No rules are made of settings and a hasher exactly if the settings are refused with it. -/
theorem of_eq_error_iff_validateFor {config : Config} {hasher : Hasher} {e : ConfigError} :
    of config hasher = .error e ↔ config.validateFor hasher = .error e :=
  of_eq_error_iff.trans Config.workFor_eq_error_iff

/-- Settings that pass with a hasher make rules with it. -/
theorem exists_of_validateFor {config : Config} {hasher : Hasher}
    (h : config.validateFor hasher = .ok ()) : ∃ r, of config hasher = .ok r := by
  cases hrules : of config hasher with
  | ok r => exact ⟨r, rfl⟩
  | error e =>
    rw [of_eq_error_iff_validateFor, h] at hrules
    contradiction

/-- Settings with a difficulty that a digest can meet are accepted with the algorithm that they name. -/
theorem exists_of_algorithm {config : Config} {a : Algorithm}
    (hdifficulty : config.difficulty.toNat ≤ digestBits)
    (ha : Algorithm.ofId? config.hashAlgorithm = some a) :
    ∃ r : Rules, r.config = config ∧ r.hasher = a.hasher := by
  have hnames : config.Names a.hasher.id :=
    Config.names_hasher_iff.mpr (Config.algorithm_eq_ok_iff.mpr ha)
  obtain ⟨r, hr⟩ := exists_of_validateFor (Config.validateFor_eq_ok_iff.mpr ⟨hdifficulty, hnames⟩)
  exact ⟨r, of_eq_ok hr⟩

/-- Rules of one configuration and one hasher are the same. -/
theorem eq_of_config_eq {r r' : Rules} (hconfig : r.config = r'.config)
    (hhasher : r.hasher = r'.hasher) : r = r' := by
  have h : of r'.config r'.hasher = .ok r := of_eq_ok_iff.mpr ⟨hconfig, hhasher⟩
  rw [of_config_hasher] at h
  injection h with h
  exact h.symm

end Rules

end MinedChain
