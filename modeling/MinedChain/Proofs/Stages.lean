import MinedChain.Proofs.HonestRun
import MinedChain.Proofs.Tampering

/-!
# The stages of a run

A run of the command goes through stages, each of which may end it. When a stage fails, and with which
error, is said here for each of them by itself, apart from any order and from the program: a stage needs
what the stages before it provide, which is the settings first, then the rules, then a chain, and there is
at most one of each. Where it is there, all stages that provide it have passed.
-/

namespace MinedChain.Command

open Chain

/-! ## What a run provides -/

/-- The text of a file, or why there is none. -/
def readText (s : Surroundings) (path : String) : Except ReadFailure String :=
  match s.read path with
  | .error cause => .error cause
  | .ok bs =>
    match Utf8.decode? bs with
    | none => .error .notUtf8
    | some text => .ok text

/-- The settings with the difficulty of the command line, if one is given. -/
def Invocation.override (i : Invocation) (config : Config) : Config :=
  { config with difficulty := i.difficulty.getD config.difficulty }

/-- The settings that a run finds, before any of them is checked: those of its file, or without a file
the usual ones. -/
inductive Finds (s : Surroundings) (i : Invocation) : Config → Prop
  | usual (hpath : i.config = none) : Finds s i .default
  | written {path text : String} {config : Config} (hpath : i.config = some path)
      (hread : readText s path = .ok text)
      (hparse : Config.record.read.whole text.toList = .ok config) : Finds s i config

/-- The rules of a run: its settings, under the difficulty that counts, and the hasher that they name. -/
structure Governs (s : Surroundings) (i : Invocation) (r : Rules) : Prop where
  config : ∃ config, Finds s i config ∧ r.config = i.override config
  hasher : ∃ a, Algorithm.ofId? r.config.hashAlgorithm = some a ∧ r.hasher = a.hasher

/-- The chain of a run before anything is appended. -/
def Begins (s : Surroundings) (i : Invocation) (c : Chain) : Prop :=
  ∃ r, Governs s i r ∧ (ofRules r).result = .ok c

/-! ## Stages -/

/-- A stage of a run. -/
inductive Stage where
  /-- The file is read as text. -/
  | reading
  /-- The text is taken for settings. -/
  | parsing
  /-- The difficulty that the file gives is checked. -/
  | ownDifficulty
  /-- The difficulty that counts is checked. -/
  | difficulty
  /-- The identifier of the algorithm is looked up. -/
  | algorithm
  /-- The genesis block is mined. -/
  | genesis
  /-- The payload at a place among the words is appended. -/
  | appending (place : Nat)
  /-- A bit is flipped, if that is asked for. -/
  | tampering
deriving DecidableEq

/-- The stages of a run in their order. -/
def Invocation.stages (i : Invocation) : List Stage :=
  [.reading, .parsing, .ownDifficulty, .difficulty, .algorithm, .genesis] ++
    match i.task with
    | .genesis => []
    | .run _ payloads => (List.range payloads.length).map .appending ++ [.tampering]

/-- A stage has what it needs and fails with an error. -/
inductive Fails (s : Surroundings) (i : Invocation) : Stage → Failure → Prop
  | reading {path : String} {cause : ReadFailure} (hpath : i.config = some path)
      (h : readText s path = .error cause) : Fails s i .reading (.reading path cause)
  | parsing {path text : String} {fault : Json.Fault} (hpath : i.config = some path)
      (hread : readText s path = .ok text)
      (h : Config.record.read.whole text.toList = .error fault) :
      Fails s i .parsing (.config (.invalidJson fault (s.wording.ofText fault text)))
  | ownDifficulty {config : Config} (hfinds : Finds s i config)
      (h : digestBits < config.difficulty.toNat) :
      Fails s i .ownDifficulty (.config (.difficultyTooHigh config.difficulty))
  | difficulty {config : Config} (hfinds : Finds s i config)
      (h : digestBits < (i.override config).difficulty.toNat) :
      Fails s i .difficulty (.config (.difficultyTooHigh (i.override config).difficulty))
  | algorithm {config : Config} (hfinds : Finds s i config)
      (h : Algorithm.ofId? config.hashAlgorithm = none) :
      Fails s i .algorithm (.config (.unknownAlgorithm config.hashAlgorithm))
  | genesis {r : Rules} {e : MiningError} (hgoverns : Governs s i r)
      (h : (ofRules r).result = .error e) : Fails s i .genesis (.chain (.mining e))
  | appending {c : Chain} {tamper : Option UInt64} {payloads : List String} {place : Nat}
      {e : ChainError} (hbegins : Begins s i c) (htask : i.task = .run tamper payloads)
      (h : (c.answers (requests s.now payloads))[place]? = some (.error e)) :
      Fails s i (.appending place) (.chain e)
  | tampering {c : Chain} {position : UInt64} {payloads : List String} (hbegins : Begins s i c)
      (htask : i.task = .run (some position) payloads)
      (h : ∀ b, (c.run (requests s.now payloads)).blocks[position.toNat]? = some b → b.payload = []) :
      Fails s i .tampering (.tampering (.nothingToFlip position))

/-- A stage that does not fail. -/
def Passes (s : Surroundings) (i : Invocation) (stage : Stage) : Prop :=
  ∀ cause, ¬ Fails s i stage cause

/-- A stage of the run fails, and all stages before it pass. -/
def FailsFirst (s : Surroundings) (i : Invocation) (stage : Stage) (cause : Failure) : Prop :=
  Fails s i stage cause ∧ ∃ before after, i.stages = before ++ stage :: after ∧
    ∀ x ∈ before, Passes s i x

variable {s : Surroundings} {i : Invocation}

/-! ## At most one of each -/

theorem Finds.unique {config config' : Config} (h : Finds s i config) (h' : Finds s i config') :
    config = config' := by
  cases h with
  | usual hpath =>
    cases h' with
    | usual => rfl
    | written hpath' => exact nomatch hpath.symm.trans hpath'
  | written hpath hread hparse =>
    cases h' with
    | usual hpath' => exact nomatch hpath.symm.trans hpath'
    | written hpath' hread' hparse' =>
      obtain rfl := Option.some.inj (hpath.symm.trans hpath')
      obtain rfl := Except.ok.inj (hread.symm.trans hread')
      exact Except.ok.inj (hparse.symm.trans hparse')

theorem Governs.unique {r r' : Rules} (h : Governs s i r) (h' : Governs s i r') : r = r' := by
  obtain ⟨⟨config, hfinds, hconfig⟩, a, ha, hhasher⟩ := h
  obtain ⟨⟨config', hfinds', hconfig'⟩, a', ha', hhasher'⟩ := h'
  obtain rfl := hfinds.unique hfinds'
  have hsame : r.config = r'.config := hconfig.trans hconfig'.symm
  rw [hsame, ha'] at ha
  obtain rfl := Option.some.inj ha
  exact Rules.eq_of_config_eq hsame (hhasher.trans hhasher'.symm)

theorem Begins.unique {c c' : Chain} (h : Begins s i c) (h' : Begins s i c') : c = c' := by
  obtain ⟨r, hgoverns, hmade⟩ := h
  obtain ⟨r', hgoverns', hmade'⟩ := h'
  obtain rfl := hgoverns.unique hgoverns'
  exact Except.ok.inj (hmade.symm.trans hmade')

/-- A stage fails with one error. -/
theorem Fails.unique {stage : Stage} {cause cause' : Failure} (h : Fails s i stage cause)
    (h' : Fails s i stage cause') : cause = cause' := by
  cases h with
  | reading hpath h =>
    obtain ⟨hpath', h'⟩ := h'
    obtain rfl := Option.some.inj (hpath.symm.trans hpath')
    rw [Except.error.inj (h.symm.trans h')]
  | parsing hpath hread h =>
    obtain _ | ⟨hpath', hread', h'⟩ := h'
    obtain rfl := Option.some.inj (hpath.symm.trans hpath')
    obtain rfl := Except.ok.inj (hread.symm.trans hread')
    rw [Except.error.inj (h.symm.trans h')]
  | ownDifficulty hfinds =>
    cases h' with
    | ownDifficulty hfinds' => rw [hfinds.unique hfinds']
  | difficulty hfinds =>
    cases h' with
    | difficulty hfinds' => rw [hfinds.unique hfinds']
  | algorithm hfinds =>
    cases h' with
    | algorithm hfinds' => rw [hfinds.unique hfinds']
  | genesis hgoverns h =>
    cases h' with
    | genesis hgoverns' h' =>
      obtain rfl := hgoverns.unique hgoverns'
      rw [Except.error.inj (h.symm.trans h')]
  | appending hbegins htask h =>
    cases h' with
    | appending hbegins' htask' h' =>
      obtain rfl := hbegins.unique hbegins'
      obtain ⟨-, rfl⟩ := Task.run.inj (htask.symm.trans htask')
      rw [Except.error.inj (Option.some.inj (h.symm.trans h'))]
  | tampering hbegins htask =>
    cases h' with
    | tampering _ htask' =>
      obtain ⟨hposition, -⟩ := Task.run.inj (htask.symm.trans htask')
      rw [Option.some.inj hposition]

/-! ## Stages that have passed -/

theorem passes_reading_of_text {path text : String} (hpath : i.config = some path)
    (hread : readText s path = .ok text) : Passes s i .reading := by
  rintro _ (⟨hpath', h⟩ | _)
  obtain rfl := Option.some.inj (hpath.symm.trans hpath')
  exact nomatch hread.symm.trans h

theorem Finds.passes_reading {config : Config} (h : Finds s i config) : Passes s i .reading := by
  cases h with
  | usual hpath =>
    rintro _ (⟨hpath', h⟩ | _)
    exact nomatch hpath.symm.trans hpath'
  | written hpath hread => exact passes_reading_of_text hpath hread

theorem Finds.passes_parsing {config : Config} (h : Finds s i config) : Passes s i .parsing := by
  intro _ hfails
  cases hfails with
  | parsing hpath' hread' hparse' =>
    cases h with
    | usual hpath => exact nomatch hpath.symm.trans hpath'
    | written hpath hread hparse =>
      obtain rfl := Option.some.inj (hpath.symm.trans hpath')
      obtain rfl := Except.ok.inj (hread.symm.trans hread')
      exact nomatch hparse.symm.trans hparse'

theorem Finds.passes_ownDifficulty {config : Config} (h : Finds s i config)
    (hle : config.difficulty.toNat ≤ digestBits) : Passes s i .ownDifficulty := by
  intro _ hfails
  cases hfails with
  | ownDifficulty h' hlt =>
    obtain rfl := h.unique h'
    omega

theorem Finds.passes_difficulty {config : Config} (h : Finds s i config)
    (hle : (i.override config).difficulty.toNat ≤ digestBits) : Passes s i .difficulty := by
  intro _ hfails
  cases hfails with
  | difficulty h' hlt =>
    obtain rfl := h.unique h'
    omega

theorem Finds.passes_algorithm {config : Config} {a : Algorithm} (h : Finds s i config)
    (ha : Algorithm.ofId? config.hashAlgorithm = some a) : Passes s i .algorithm := by
  intro _ hfails
  cases hfails with
  | algorithm h' hnone =>
    obtain rfl := h.unique h'
    exact nomatch ha.symm.trans hnone

theorem Begins.passes_genesis {c : Chain} (h : Begins s i c) : Passes s i .genesis := by
  obtain ⟨r, hgoverns, hmade⟩ := h
  intro _ hfails
  cases hfails with
  | genesis hgoverns' hfailed =>
    obtain rfl := hgoverns.unique hgoverns'
    exact nomatch hmade.symm.trans hfailed

theorem Begins.passes_appending {c : Chain} {tamper : Option UInt64} {payloads : List String}
    {place : Nat} {b : Block} (h : Begins s i c) (htask : i.task = .run tamper payloads)
    (hgranted : (c.answers (requests s.now payloads))[place]? = some (.ok b)) :
    Passes s i (.appending place) := by
  intro _ hfails
  cases hfails with
  | appending h' htask' hrefused =>
    obtain rfl := h.unique h'
    obtain ⟨-, rfl⟩ := Task.run.inj (htask.symm.trans htask')
    exact nomatch hgranted.symm.trans hrefused

theorem passes_tampering_of_none {payloads : List String} (htask : i.task = .run none payloads) :
    Passes s i .tampering := by
  intro _ hfails
  cases hfails with
  | tampering _ htask' => exact nomatch htask.symm.trans htask'

theorem Begins.passes_tampering {c c' : Chain} {position : UInt64} {payloads : List String}
    (h : Begins s i c) (htask : i.task = .run (some position) payloads)
    (hflipped : (c.run (requests s.now payloads)).tamper s.wording position = .ok c') :
    Passes s i .tampering := by
  intro _ hfails
  cases hfails with
  | tampering h' htask' hnothing =>
    obtain rfl := h.unique h'
    obtain ⟨hposition, rfl⟩ := Task.run.inj (htask.symm.trans htask')
    obtain rfl := Option.some.inj hposition
    exact nomatch (tamper_eq_error_iff.mpr ⟨rfl, hnothing⟩).symm.trans hflipped

end MinedChain.Command
