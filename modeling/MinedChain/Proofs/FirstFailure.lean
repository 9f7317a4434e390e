import MinedChain.Proofs.SettingsText
import MinedChain.Proofs.Stages

/-!
# The first stage that fails

A run ends with the error of the first of its stages that fails, and then nothing is printed. If all of
them pass, what is printed is not empty. The program is followed stage by stage: a stage that fails finds
that nothing has been printed yet and decides the outcome, and a stage that passes prints nothing and leaves
the outcome to those behind it.
-/

namespace MinedChain.Command

open Chain

variable {s : Surroundings} {i : Invocation} {stages : List Stage}

/-- An outcome is that of stages made one after another: the error of the first that fails and nothing
printed, and a text if none does. -/
inductive Reports (s : Surroundings) (i : Invocation) : List Stage → Outcome → Prop
  | finished {text : String} (h : text ≠ "") : Reports s i [] ⟨0, text, ""⟩
  | failed {stage : Stage} {cause : Failure} (h : Fails s i stage cause) (stages : List Stage) :
      Reports s i (stage :: stages) ⟨1, "", cause.report⟩
  | passed {stage : Stage} {stages : List Stage} {outcome : Outcome} (h : Passes s i stage)
      (hrest : Reports s i stages outcome) : Reports s i (stage :: stages) outcome

namespace Reports

variable {outcome : Outcome}

/-- A stage that fails behind stages that pass decides the outcome. -/
theorem eq_of_fails {before after : List Stage} {stage : Stage} {cause : Failure}
    (h : Reports s i (before ++ stage :: after) outcome) (hbefore : ∀ x ∈ before, Passes s i x)
    (hfails : Fails s i stage cause) : outcome = ⟨1, "", cause.report⟩ := by
  induction before with
  | nil =>
    cases h with
    | failed h => rw [h.unique hfails]
    | passed hpasses => exact absurd hfails (hpasses cause)
  | cons x before ih =>
    cases h with
    | failed h => exact absurd h (hbefore x List.mem_cons_self _)
    | passed _ hrest => exact ih hrest fun y hy => hbefore y (List.mem_cons_of_mem x hy)

theorem exists_text (h : Reports s i stages outcome) (hpasses : ∀ x ∈ stages, Passes s i x) :
    ∃ text, text ≠ "" ∧ outcome = ⟨0, text, ""⟩ := by
  induction h with
  | finished h => exact ⟨_, h, rfl⟩
  | failed h => exact absurd h (hpasses _ List.mem_cons_self _)
  | passed _ _ ih => exact ih fun x hx => hpasses x (List.mem_cons_of_mem _ hx)

/-- Unless all stages pass, there is a first that does not. -/
theorem passes_or_fails (h : Reports s i stages outcome) :
    (∀ x ∈ stages, Passes s i x) ∨
      ∃ before stage after cause, stages = before ++ stage :: after ∧
        (∀ x ∈ before, Passes s i x) ∧ Fails s i stage cause := by
  induction h with
  | finished => exact .inl fun x hx => nomatch hx
  | failed h stages => exact .inr ⟨[], _, stages, _, rfl, List.forall_mem_nil _, h⟩
  | passed h _ ih =>
    rcases ih with hpasses | ⟨before, stage, after, cause, rfl, hbefore, hfails⟩
    · exact .inl (List.forall_mem_cons.mpr ⟨h, hpasses⟩)
    · exact .inr ⟨_ :: before, stage, after, cause, rfl, List.forall_mem_cons.mpr ⟨h, hbefore⟩, hfails⟩

end Reports

/-! ## Settings -/

theorem configOfFile_eq (s : Surroundings) (path : String) :
    configOfFile s path =
      match readText s path with
      | .error cause => .error (.reading path cause)
      | .ok text => (Config.ofText s.wording text).mapError .config := by
  unfold configOfFile readText
  cases s.read path with
  | error cause => rfl
  | ok bs =>
    dsimp only
    cases Utf8.decode? bs <;> rfl

/-- The settings before the difficulty of the command line is put in. -/
def loaded (s : Surroundings) (i : Invocation) : Except Failure Config :=
  match i.config with
  | some path => configOfFile s path
  | none => .ok .default

/-- The settings with the difficulty that counts, once they have been checked. -/
def checked (i : Invocation) (config : Config) : Except Failure Config :=
  ((i.override config).validate.mapError .config).map fun _ => i.override config

theorem loadConfig_eq (s : Surroundings) (i : Invocation) :
    loadConfig s i.config i.difficulty = loaded s i >>= checked i := by
  unfold loadConfig loaded
  cases i.config <;> rfl

/-- The settings that a run finds are loaded, once the difficulty that the file gives has been checked. -/
theorem loaded_of_finds {config : Config} (hfinds : Finds s i config)
    (hown : config.difficulty.toNat ≤ digestBits) : loaded s i = .ok config := by
  cases hfinds with
  | usual hpath => rw [loaded, hpath]
  | written hpath hread hparse =>
    rw [loaded, hpath]
    dsimp only
    rw [configOfFile_eq, hread]
    dsimp only
    rw [Config.ofText_of_whole s.wording hparse, if_pos hown]
    rfl

/-- Settings are loaded by three stages. -/
theorem reports_loaded {k : Config → Printing Unit}
    (hrest : ∀ config, Finds s i config → config.difficulty.toNat ≤ digestBits →
      Reports s i stages (k config).outcome) :
    Reports s i (.reading :: .parsing :: .ownDifficulty :: stages)
      (Printing.outcome (.ofResult (loaded s i) >>= k)) := by
  rw [Printing.outcome_ofTraced_bind, Traced.result_ofResult]
  cases hpath : i.config with
  | none =>
    have hfinds : Finds s i .default := .usual hpath
    have hown : Config.default.difficulty.toNat ≤ digestBits := by decide
    rw [loaded_of_finds hfinds hown]
    exact .passed hfinds.passes_reading (.passed hfinds.passes_parsing
      (.passed (hfinds.passes_ownDifficulty hown) (hrest _ hfinds hown)))
  | some path =>
    rw [loaded, hpath]
    dsimp only
    rw [configOfFile_eq]
    cases hread : readText s path with
    | error cause => exact .failed (.reading hpath hread) _
    | ok text =>
      refine .passed (passes_reading_of_text hpath hread) ?_
      dsimp only
      cases hparse : Config.record.read.whole text.toList with
      | error fault =>
        rw [Config.ofText, hparse]
        exact .failed (.parsing hpath hread hparse) _
      | ok config =>
        have hfinds : Finds s i config := .written hpath hread hparse
        refine .passed hfinds.passes_parsing ?_
        rw [Config.ofText_of_whole s.wording hparse]
        by_cases hown : config.difficulty.toNat ≤ digestBits
        · rw [if_pos hown]
          exact .passed (hfinds.passes_ownDifficulty hown) (hrest config hfinds hown)
        · rw [if_neg hown]
          exact .failed (.ownDifficulty hfinds (Nat.lt_of_not_le hown)) _

/-- The settings that count are checked by two stages. -/
theorem reports_checked {k : Config → Printing Unit} {config : Config} (hfinds : Finds s i config)
    (hrest : ∀ r, Governs s i r → Reports s i stages (k r.config).outcome) :
    Reports s i (.difficulty :: .algorithm :: stages)
      (Printing.outcome (.ofResult (checked i config) >>= k)) := by
  rw [Printing.outcome_ofTraced_bind, Traced.result_ofResult, checked, Config.validate_eq]
  by_cases hle : (i.override config).difficulty.toNat ≤ digestBits
  · rw [if_pos hle]
    refine .passed (hfinds.passes_difficulty hle) ?_
    cases ha : Algorithm.ofId? (i.override config).hashAlgorithm with
    | none => exact .failed (.algorithm hfinds ha) _
    | some a =>
      obtain ⟨r, hconfig, hhasher⟩ := Rules.exists_of_algorithm hle ha
      have hgoverns : Governs s i r := ⟨⟨config, hfinds, hconfig⟩, a, hconfig ▸ ha, hhasher⟩
      have hreports := hrest r hgoverns
      rw [hconfig] at hreports
      exact .passed (hfinds.passes_algorithm ha) hreports
  · rw [if_neg hle]
    exact .failed (.difficulty hfinds (Nat.lt_of_not_le hle)) _

theorem reports_loadConfig {k : Config → Printing Unit}
    (hrest : ∀ r, Governs s i r → Reports s i stages (k r.config).outcome) :
    Reports s i (.reading :: .parsing :: .ownDifficulty :: .difficulty :: .algorithm :: stages)
      (Printing.outcome (.ofResult (loadConfig s i.config i.difficulty) >>= k)) := by
  rw [loadConfig_eq, Printing.outcome_ofResult_bind]
  exact reports_loaded fun config hfinds _ => reports_checked hfinds hrest

/-! ## The chain -/

/-- A new chain is made by the rules of the run. -/
theorem Governs.result_ofConfig {r : Rules} (h : Governs s i r) :
    (ofConfig r.config).result = (ofRules r).result.mapError .mining := by
  obtain ⟨-, a, ha, hhasher⟩ := h
  have hrules : Rules.of r.config a.hasher = .ok r := hhasher ▸ r.of_config_hasher
  rw [ofConfig_of_algorithm (Config.algorithm_eq_ok_iff.mpr ha), create, hrules]
  rfl

theorem reports_ofConfig {k : Chain → Printing Unit} {r : Rules} (hgoverns : Governs s i r)
    (hrest : ∀ c, Begins s i c → Reports s i stages (k c).outcome) :
    Reports s i (.genesis :: stages)
      (Printing.outcome (.ofTraced ((ofConfig r.config).mapError .chain) >>= k)) := by
  rw [Printing.outcome_ofTraced_bind, Traced.result_mapError, hgoverns.result_ofConfig]
  cases hmade : (ofRules r).result with
  | error e => exact .failed (.genesis hgoverns hmade) _
  | ok c =>
    have hbegins : Begins s i c := ⟨r, hgoverns, hmade⟩
    exact .passed hbegins.passes_genesis (hrest c hbegins)

theorem requests_append (now : Int) (ps ps' : List String) :
    requests now (ps ++ ps') = requests now ps ++ requests now ps' :=
  List.map_append

/-- The call for a payload is answered by the chain that the calls before it leave. -/
theorem answer_request (c : Chain) (now : Int) (done : List String) (p : String) (ps : List String) :
    (c.answers (requests now (done ++ p :: ps)))[done.length]? =
      some ((c.run (requests now done)).answer (.append (Utf8.encode p) now)) := by
  have hlength : (c.answers (requests now done)).length = done.length := by
    rw [length_answers, requests, List.length_map]
  rw [requests_append, answers_append, List.getElem?_append_right (Nat.le_of_eq hlength), hlength,
    Nat.sub_self]
  rfl

/-- Payloads are appended by one stage each, in their order. -/
theorem reports_appendAll {k : Chain → Printing Unit} {c : Chain} {tamper : Option UInt64}
    {todo : List String} (done : List String) (hbegins : Begins s i c)
    (htask : i.task = .run tamper (done ++ todo))
    (hrest : Reports s i stages (k (c.run (requests s.now (done ++ todo)))).outcome) :
    Reports s i ((List.range' done.length todo.length).map .appending ++ stages)
      (Printing.outcome
        (.ofResult ((appendAll s.now todo (c.run (requests s.now done))).mapError .chain) >>= k)) := by
  rw [Printing.outcome_ofTraced_bind, Traced.result_ofResult]
  induction todo generalizing done with
  | nil =>
    rw [List.append_nil] at hrest
    exact hrest
  | cons p ps ih =>
    have hanswers := answer_request c s.now done p ps
    rw [List.length_cons, List.range'_succ, appendAll_cons]
    cases hanswer : (c.run (requests s.now done)).answer (.append (Utf8.encode p) s.now) with
    | error e =>
      rw [hanswer] at hanswers
      exact .failed (.appending hbegins htask hanswers) _
    | ok b =>
      rw [hanswer] at hanswers
      refine .passed (hbegins.passes_appending htask hanswers) ?_
      have htask' : i.task = .run tamper ((done ++ [p]) ++ ps) := by
        rw [htask, List.append_assoc]
        rfl
      have hrest' :
          Reports s i stages (k (c.run (requests s.now ((done ++ [p]) ++ ps)))).outcome := by
        rw [List.append_assoc]
        exact hrest
      have hreports := ih (done ++ [p]) htask' hrest'
      rw [requests_append, run_append, List.length_append] at hreports
      exact hreports

/-- A bit is flipped in the last stage. -/
theorem reports_tampered {k : Chain → Printing Unit} {c : Chain} {tamper : Option UInt64}
    {payloads : List String} (hbegins : Begins s i c) (htask : i.task = .run tamper payloads)
    (hrest : ∀ c', Reports s i stages (k c').outcome) :
    Reports s i (.tampering :: stages)
      (Printing.outcome (.ofResult
        ((tampered s.wording tamper (c.run (requests s.now payloads))).mapError .tampering) >>= k)) := by
  rw [Printing.outcome_ofTraced_bind, Traced.result_ofResult]
  cases tamper with
  | none => exact .passed (passes_tampering_of_none htask) (hrest _)
  | some position =>
    rw [tampered]
    cases hflipped : (c.run (requests s.now payloads)).tamper s.wording position with
    | error e =>
      obtain ⟨rfl, hnothing⟩ := tamper_eq_error_iff.mp hflipped
      exact .failed (.tampering hbegins htask hnothing) _
    | ok c' => exact .passed (hbegins.passes_tampering htask hflipped) (hrest c')

/-! ## Runs -/

/-- A table ends in the end of a line. -/
theorem table_ne_empty (bs : List Block) : String.ofList (Row.table bs) ≠ "" := by
  simp [Row.table]

theorem table_append_ne_empty (bs : List Block) (rest : String) :
    String.ofList (Row.table bs) ++ rest ≠ "" := fun h =>
  table_ne_empty bs (String.append_eq_empty_iff.mp h).1

/-- What a task makes of the settings goes through the other stages. -/
theorem reports_perform {r : Rules} (hgoverns : Governs s i r) :
    Reports s i (.genesis :: match i.task with
      | .genesis => []
      | .run _ payloads => (List.range payloads.length).map .appending ++ [.tampering])
      (perform s r.config i.task).outcome := by
  cases htask : i.task with
  | genesis =>
    refine reports_ofConfig hgoverns fun c _ => ?_
    rw [printBlocks, Printing.outcome_print]
    exact .finished (table_ne_empty [c.genesis])
  | run tamper payloads =>
    refine reports_ofConfig hgoverns fun c hbegins => ?_
    dsimp only
    rw [List.range_eq_range']
    refine reports_appendAll [] hbegins htask (reports_tampered hbegins htask fun c' => ?_)
    rw [printBlocks, Printing.outcome_print_bind_print]
    exact .finished (table_append_ne_empty c'.blocks (verdictLine c'))

/-- A run goes through its stages. -/
theorem reports_run (s : Surroundings) (i : Invocation) : Reports s i i.stages (i.run s) :=
  reports_loadConfig fun _ hgoverns => reports_perform hgoverns

/-- Settings that differ in a difficulty that is not used are loaded alike. -/
theorem loadConfig_of_given_difficulty {s s' : Surroundings} {i i' : Invocation} {config : Config}
    {d : UInt32} (hgiven : i.difficulty ≠ none) (hdifficulty : i'.difficulty = i.difficulty)
    (hfinds : Finds s i config) (hfinds' : Finds s' i' { config with difficulty := d })
    (hown : config.difficulty.toNat ≤ digestBits) (hown' : d.toNat ≤ digestBits) :
    loadConfig s' i'.config i'.difficulty = loadConfig s i.config i.difficulty := by
  obtain ⟨override, hoverride⟩ := Option.ne_none_iff_exists'.mp hgiven
  have hsame : i'.override { config with difficulty := d } = i.override config := by
    rw [Invocation.override, Invocation.override, hdifficulty, hoverride]
    rfl
  rw [loadConfig_eq, loadConfig_eq, loaded_of_finds hfinds hown, loaded_of_finds hfinds' hown']
  show checked i' _ = checked i config
  rw [checked, checked, hsame]

/-- Of the surroundings, a task looks at the clock alone. -/
theorem perform_of_now_eq {s s' : Surroundings} (h : s'.now = s.now) (config : Config) (task : Task) :
    perform s' config task = perform s config task := by
  have htampered (tamper : Option UInt64) (c : Chain) :
      tampered s'.wording tamper c = tampered s.wording tamper c := by
    cases tamper with
    | none => rfl
    | some position => exact c.tamper_eq_tamper position _ _
  cases task with
  | genesis => rfl
  | run tamper payloads => simp only [perform, h, htampered]

/-- A run whose words are understood ends with the error of the first of its stages that fails, with what
caused that below it, and then prints nothing; if no stage fails it ends well and prints something; and one of the two is so. The
difficulty in a file is checked, and that is all it is used for where the words give one: files that
differ in it alone, if all pass that check, make for the same run. -/
theorem runs_end_at_first_failing_stage :
    (∀ (s : Surroundings) (words : List String) (i : Invocation),
      Invocation.ofWords words = .ok i → ∃ outcome, run s words = .ok outcome ∧
      (∀ stage cause, FailsFirst s i stage cause →
        outcome = ⟨1, "", "Error: " ++ cause.message ++ causedBy cause.source? ++ "\n"⟩) ∧
      ((∀ stage ∈ i.stages, Passes s i stage) →
        outcome.code = 0 ∧ outcome.stdout ≠ "" ∧ outcome.stderr = "") ∧
      ((∃ stage cause, FailsFirst s i stage cause) ∨ ∀ stage ∈ i.stages, Passes s i stage)) ∧
    (∀ (s s' : Surroundings) (words words' : List String) (i i' : Invocation) (config : Config)
      (d : UInt32), Invocation.ofWords words = .ok i → Invocation.ofWords words' = .ok i' →
      s'.now = s.now → i'.task = i.task → i'.difficulty = i.difficulty → i.difficulty ≠ none →
      Finds s i config → Finds s' i' { config with difficulty := d } →
      config.difficulty.toNat ≤ digestBits → d.toNat ≤ digestBits → run s' words' = run s words) := by
  constructor
  · intro s words i hwords
    have hreports := reports_run s i
    refine ⟨i.run s, run_of_ofWords hwords s, ?_, ?_, ?_⟩
    · rintro stage cause ⟨hfails, before, after, hstages, hbefore⟩
      rw [hstages] at hreports
      exact hreports.eq_of_fails hbefore hfails
    · intro hpasses
      obtain ⟨text, htext, houtcome⟩ := hreports.exists_text hpasses
      rw [houtcome]
      exact ⟨rfl, htext, rfl⟩
    · rcases hreports.passes_or_fails with
        hpasses | ⟨before, stage, after, cause, hstages, hbefore, hfails⟩
      · exact .inr hpasses
      · exact .inl ⟨stage, cause, hfails, before, after, hstages, hbefore⟩
  · intro s s' words words' i i' config d hwords hwords' hclock htask hdifficulty hgiven hfinds hfinds'
      hown hown'
    have hload := loadConfig_of_given_difficulty hgiven hdifficulty hfinds hfinds' hown hown'
    have hperform (config : Config) : perform s' config i'.task = perform s config i.task := by
      rw [htask, perform_of_now_eq hclock]
    simp only [run_of_ofWords hwords, run_of_ofWords hwords', Invocation.run, hload, hperform]

/-- The settings of a difficulty, as a file of any name. -/
def filesOf (d : UInt32) : Surroundings :=
  ⟨7, fun _ => .ok (Utf8.encode (Config.toText { difficulty := d })), .plain⟩

theorem finds_filesOf {path : String} {i : Invocation} (hpath : i.config = some path) (d : UInt32) :
    Finds (filesOf d) i { difficulty := d } := by
  have hread : readText (filesOf d) path = .ok (Config.toText { difficulty := d }) := by
    rw [readText, filesOf]
    dsimp only
    rw [Utf8.decode?_encode]
  exact .written hpath hread (Config.whole_of_gives (Config.gives_toText { difficulty := d }))

/-- A file that ends behind its first brace, and words for that. -/
def openBrace : Surroundings :=
  ⟨7, fun _ => .ok (Utf8.encode "\x7b"),
    { Json.Wording.plain with ofText := fun _ _ => "EOF while parsing an object at line 1 column 1" }⟩

/-- A difficulty that no digest meets is refused although another is given, and of two others neither
makes a difference then. What is said about a text that ends too early is reported, and reported again as
the cause. -/
theorem file_difficulty_refused_or_unused :
    run (filesOf 300) ["--config=c", "--difficulty=0", "run"] =
      .ok ⟨1, "", "Error: difficulty 300 exceeds the 256-bit digest width\n"⟩ ∧
    run (filesOf 200) ["--config=c", "--difficulty=0", "run"] =
      run (filesOf 3) ["--config=c", "--difficulty=0", "run"] ∧
    run openBrace ["--config=c", "--difficulty=0", "run"] =
      .ok ⟨1, "", "Error: invalid configuration json: EOF while parsing an object at line 1 column 1\n" ++
        "\nCaused by:\n    EOF while parsing an object at line 1 column 1\n"⟩ := by
  have hpath : some "c" ≠ some "" := by decide
  have hwords : Invocation.ofWords ["--config=c", "--difficulty=0", "run"] =
      .ok ⟨some "c", some 0, .run none []⟩ := ofWords_optionWords hpath (some 0)
  let i : Invocation := ⟨some "c", some 0, .run none []⟩
  have hends {s : Surroundings} {stage : Stage} {cause : Failure} (h : FailsFirst s i stage cause) :
      run s ["--config=c", "--difficulty=0", "run"] = .ok ⟨1, "", cause.report⟩ := by
    obtain ⟨outcome, hrun, hfirst, -⟩ := runs_end_at_first_failing_stage.1 s _ i hwords
    rw [hrun, hfirst _ _ h]
    rfl
  refine ⟨?_, ?_, ?_⟩
  · have hfinds : Finds (filesOf 300) i { difficulty := 300 } := finds_filesOf rfl 300
    have hbefore : ∀ x ∈ [Stage.reading, .parsing], Passes (filesOf 300) i x :=
      List.forall_mem_cons.mpr ⟨hfinds.passes_reading,
        List.forall_mem_cons.mpr ⟨hfinds.passes_parsing, List.forall_mem_nil _⟩⟩
    have hfails : Fails (filesOf 300) i .ownDifficulty (.config (.difficultyTooHigh 300)) :=
      .ownDifficulty hfinds (by decide)
    rw [hends ⟨hfails, [.reading, .parsing], _, rfl, hbefore⟩]
    rfl
  · exact runs_end_at_first_failing_stage.2 (filesOf 3) (filesOf 200) _ _ i i { difficulty := 3 } 200
      hwords hwords rfl rfl rfl nofun (finds_filesOf rfl 3) (finds_filesOf rfl 200) (by decide)
      (by decide)
  · have hread : readText openBrace "c" = .ok "\x7b" := by rfl
    have hparse : Config.record.read.whole "\x7b".toList = .error .truncated := by cbv
    have hbefore : ∀ x ∈ [Stage.reading], Passes openBrace i x :=
      List.forall_mem_cons.mpr ⟨passes_reading_of_text rfl hread, List.forall_mem_nil _⟩
    rw [hends ⟨.parsing rfl hread hparse, [.reading], _, rfl, hbefore⟩]
    rfl

end MinedChain.Command
