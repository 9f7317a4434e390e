import MinedChain.Proofs.Refusals

/-!
# Identifiers that name a hasher

Settings name a hasher by its identifier in any case, but not every identifier can be used so. One that spells
a built-in algorithm is read as the algorithm's own, and compared with the hasher's letter for letter. So a
hasher whose identifier spells an algorithm otherwise, by a capital letter or by the other spelling, is named
by no settings at all, and not by those that have its very identifier.
-/

namespace MinedChain

/-- The identifier is a built-in algorithm's own, or spells no built-in algorithm, up to case. -/
def Hasher.Nameable (h : Hasher) : Prop :=
  (∃ a : Algorithm, h.id = a.id) ∨ ∀ a : Algorithm, ∀ t ∈ a.spellings, foldCase t ≠ foldCase h.id

/-- Where a nameable identifier is recognised, it is the algorithm's own. -/
theorem Hasher.nameable_iff {h : Hasher} :
    h.Nameable ↔ ∀ a, Algorithm.ofId? h.id = some a → a.id = h.id := by
  constructor
  · rintro (⟨a, ha⟩ | hnone) b hb
    · rw [ha, Algorithm.ofId?_id] at hb
      injection hb with hb
      rw [ha, hb]
    · obtain ⟨t, ht, hfold⟩ := Algorithm.ofId?_eq_some_iff.mp hb
      exact absurd hfold (hnone b t ht)
  · intro hown
    cases hnamed : Algorithm.ofId? h.id with
    | some a => exact .inl ⟨a, (hown a hnamed).symm⟩
    | none =>
      right
      intro a t ht hfold
      rw [Algorithm.ofId?_eq_some_iff.mpr ⟨t, ht, hfold⟩] at hnamed
      contradiction

namespace Config

variable {config : Config} {hasher : Hasher}

/-- A hasher that some settings name is nameable. -/
theorem Names.nameable (h : config.Names hasher.id) : hasher.Nameable := by
  rw [Hasher.nameable_iff]
  intro a ha
  rw [Names] at h
  cases hnamed : Algorithm.ofId? config.hashAlgorithm with
  | some b =>
    rw [hnamed] at h
    rw [← h, Algorithm.ofId?_id] at ha
    injection ha with ha
    rw [← ha, h]
  | none =>
    rw [hnamed] at h
    rw [← Algorithm.ofId?_congr h, hnamed] at ha
    contradiction

/-- Settings with the hasher's identifier, up to case, name it exactly if it is nameable. -/
theorem names_iff_nameable (h : foldCase config.hashAlgorithm = foldCase hasher.id) :
    config.Names hasher.id ↔ hasher.Nameable := by
  refine ⟨Names.nameable, fun hnameable => ?_⟩
  rw [Names, Algorithm.ofId?_congr h]
  cases hnamed : Algorithm.ofId? hasher.id with
  | some a => exact Hasher.nameable_iff.mp hnameable a hnamed
  | none => exact h

/-- Settings accept some hasher of this identifier exactly if it is nameable. -/
theorem exists_validateFor_iff :
    (∃ config : Config, config.validateFor hasher = .ok ()) ↔ hasher.Nameable := by
  constructor
  · rintro ⟨config, h⟩
    exact (validateFor_eq_ok_iff.mp h).2.nameable
  · intro hnameable
    let config : Config := { difficulty := 0, hashAlgorithm := hasher.id }
    have hnames : config.Names hasher.id := (names_iff_nameable rfl).mpr hnameable
    exact ⟨config, validateFor_eq_ok_iff.mpr ⟨Nat.zero_le _, hnames⟩⟩

end Config

namespace Chain

/-- There are settings that name a hasher exactly if its identifier is a built-in algorithm's own, or spells
none up to case. Then all settings with that identifier, in any case, and a difficulty that a digest can meet
pass with the hasher, and no chain is refused because they do not name it. Otherwise all of them are refused
because they do not name it, and so is every chain that is to be made from them. -/
theorem own_identifier_names_iff_nameable (hasher : Hasher) :
    ((∃ config : Config, config.validateFor hasher = .ok ()) ↔ hasher.Nameable) ∧
    ∀ config : Config, config.difficulty.toNat ≤ digestBits →
      foldCase config.hashAlgorithm = foldCase hasher.id →
      (hasher.Nameable → config.validateFor hasher = .ok () ∧
        ∀ configured provided,
          (create config hasher).result ≠ .error (.config (.algorithmMismatch configured provided)) ∧
          ∀ bs, ofBlocks config hasher bs ≠ .error (.config (.algorithmMismatch configured provided))) ∧
      (¬ hasher.Nameable →
        let mismatch : ConfigError := .algorithmMismatch config.hashAlgorithm hasher.id
        config.validateFor hasher = .error mismatch ∧
        (create config hasher).result = .error (.config mismatch) ∧
        ∀ bs, ofBlocks config hasher bs = .error (.config mismatch)) := by
  refine ⟨Config.exists_validateFor_iff, fun config hle hfold => ⟨fun hnameable => ?_, fun hnot => ?_⟩⟩
  · have hnames : config.Names hasher.id := (Config.names_iff_nameable hfold).mpr hnameable
    have hchecked : config.validateFor hasher = .ok () := Config.validateFor_eq_ok_iff.mpr ⟨hle, hnames⟩
    simp only [ne_eq, result_create_eq_config_iff, ofBlocks_eq_config_iff, hchecked, reduceCtorEq,
      not_false_eq_true, implies_true, and_self]
  · have hnames : ¬ config.Names hasher.id := mt (Config.names_iff_nameable hfold).mp hnot
    have hchecked : config.validateFor hasher =
        .error (.algorithmMismatch config.hashAlgorithm hasher.id) := by
      rw [Config.validateFor_eq, if_pos hle, if_neg hnames]
    exact ⟨hchecked, result_create_eq_config_iff.mpr hchecked, fun bs => ofBlocks_eq_config_iff.mpr hchecked⟩

/-- A hasher with an identifier of its own is named by it in another case. -/
theorem other_case_names_hasher :
    let hasher := (Hasher.constant .zero).withId "Keccak"
    let config : Config := { difficulty := 256, hashAlgorithm := "kECCAK" }
    hasher.Nameable ∧ config.validateFor hasher = .ok () := by
  intro hasher config
  have hnameable : hasher.Nameable := .inr (by rintro (_ | _) <;> decide)
  obtain ⟨-, hown⟩ := own_identifier_names_iff_nameable hasher
  exact ⟨hnameable, ((hown config (by decide) (by decide)).1 hnameable).1⟩

/-- A hasher with the identifier of a built-in algorithm in capitals is refused under that identifier. -/
theorem capital_identifier_refused :
    let hasher := Algorithm.sha256.hasher.withId "SHA256"
    let config : Config := { hashAlgorithm := "SHA256" }
    config.difficulty.toNat ≤ digestBits ∧ foldCase config.hashAlgorithm = foldCase hasher.id ∧
      config.validateFor hasher = .error (.algorithmMismatch "SHA256" "SHA256") ∧
      (create config hasher).result = .error (.config (.algorithmMismatch "SHA256" "SHA256")) ∧
      ofBlocks config hasher [] = .error (.config (.algorithmMismatch "SHA256" "SHA256")) := by
  intro hasher config
  have hle : config.difficulty.toNat ≤ digestBits := by decide
  have hnames : ¬ config.Names hasher.id := by decide
  have hchecked : config.validateFor hasher = .error (.algorithmMismatch "SHA256" "SHA256") := by
    rw [Config.validateFor_eq, if_pos hle, if_neg hnames]
    rfl
  exact ⟨hle, rfl, hchecked, result_create_eq_config_iff.mpr hchecked,
    ofBlocks_eq_config_iff.mpr hchecked⟩

end Chain

end MinedChain
