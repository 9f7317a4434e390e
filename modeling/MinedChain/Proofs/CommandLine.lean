import MinedChain.Command.Arguments
import MinedChain.Proofs.DecimalText

/-!
# Payloads on a command line

Behind two dashes every word is a payload, whatever it looks like. So words that are understood as a run,
with two dashes and any further words behind them, are understood as the same run with these words as
further payloads.
-/

namespace MinedChain.Command

/-- Both operations succeed when the second on the result of the first does. -/
theorem exists_of_bind_eq_ok {ε α β : Type} {x : Except ε α} {f : α → Except ε β} {b : β}
    (h : (x >>= f) = .ok b) : ∃ a, x = .ok a ∧ f a = .ok b := by
  cases x with
  | error e => exact nomatch h
  | ok a => exact ⟨a, rfl, h⟩

/-! ## Two dashes -/

theorem Word.ofText_ne_endOfOptions {text : String} (h : text ≠ "--") :
    Word.ofText text ≠ .endOfOptions := by
  unfold Word.ofText
  split
  next htext => exact absurd (String.toList_inj.mp htext) h
  next => split <;> exact nofun
  next => exact nofun
  next => exact nofun

namespace Reading

variable {r r' : Reading} {text : String}

theorem optionsEnded_plain (h : r.plain text = .ok r') : r'.optionsEnded = r.optionsEnded := by
  unfold plain at h
  split at h
  next =>
    split at h
    next =>
      split at h
      · contradiction
      · injection h with h
        rw [← h]
    next => contradiction
  next => contradiction
  next =>
    obtain ⟨options, -, h⟩ := exists_of_bind_eq_ok h
    injection h with h
    rw [← h]
  next =>
    split at h
    · injection h with h
      rw [← h]
    · contradiction

theorem help_ne_ok : r.help ≠ .ok r' := by
  intro h
  obtain ⟨_, -, h⟩ := exists_of_bind_eq_ok h
  contradiction

theorem optionsEnded_free (htext : text ≠ "--") (h : r.free text = .ok r') :
    r'.optionsEnded = r.optionsEnded := by
  unfold free at h
  split at h
  next =>
    split at h
    · injection h with h
      rw [← h]
    · exact optionsEnded_plain h
  next hended => exact absurd hended (Word.ofText_ne_endOfOptions htext)
  next => exact absurd h help_ne_ok
  next => contradiction
  next =>
    split at h
    · contradiction
    · obtain ⟨options, -, h⟩ := exists_of_bind_eq_ok h
      injection h with h
      rw [← h]
  next =>
    split at h
    · exact absurd h help_ne_ok
    · contradiction

/-- Only two dashes end the options. -/
theorem optionsEnded_next (htext : text ≠ "--") (h : r.next text = .ok r') :
    r'.optionsEnded = r.optionsEnded := by
  unfold next at h
  split at h
  next => exact optionsEnded_plain h
  next => exact optionsEnded_plain h
  next => exact optionsEnded_free htext h

theorem optionsEnded_foldlM {words : List String} (hwords : "--" ∉ words)
    (h : words.foldlM next r = .ok r') : r'.optionsEnded = r.optionsEnded := by
  induction words generalizing r with
  | nil =>
    injection h with h
    rw [← h]
  | cons word words ih =>
    rw [List.foldlM_cons] at h
    obtain ⟨r'', hnext, h⟩ := exists_of_bind_eq_ok h
    rw [ih (List.not_mem_of_not_mem_cons hwords) h,
      optionsEnded_next (List.ne_of_not_mem_cons hwords).symm hnext]

theorem next_dashes (hplace : r.place = .run) (hended : r.optionsEnded = false) :
    r.next "--" = .ok { r with optionsEnded := true } := by
  obtain ⟨place, front, options, payloads, optionsEnded⟩ := r
  obtain rfl : place = .run := hplace
  obtain rfl : optionsEnded = false := hended
  rfl

end Reading

/-! ## Settled options -/

namespace Options

variable {o o' : Options}

theorem pending_store {name : OptionName} {value : String} (h : o.store name value = .ok o') :
    o'.pending = o.pending := by
  unfold store at h
  split at h
  · contradiction
  · cases name with
    | config =>
      dsimp only at h
      split at h
      · contradiction
      · injection h with h
        rw [← h]
    | difficulty =>
      dsimp only at h
      split at h
      · injection h with h
        rw [← h]
      · contradiction
    | tamper =>
      dsimp only at h
      split at h
      · injection h with h
        rw [← h]
      · contradiction

/-- Settled options stay as they are. -/
theorem settle_of_settle (h : o.settle = .ok o') : o'.settle = .ok o' := by
  have hpending : o'.pending = none := by
    unfold settle at h
    split at h
    next hnone =>
      injection h with h
      rw [← h, hnone]
    next => contradiction
    next => exact pending_store h
  rw [settle, hpending]

end Options

/-! ## Payloads -/

namespace Reading

variable {r : Reading}

theorem next_payload (hplace : r.place = .run) (hended : r.optionsEnded = true) {options : Options}
    (hsettle : r.options.settle = .ok options) (p : String) :
    r.next p = .ok { r with options, payloads := r.payloads ++ [p] } := by
  obtain ⟨place, front, options', payloads, optionsEnded⟩ := r
  obtain rfl : place = .run := hplace
  obtain rfl : optionsEnded = true := hended
  show (options'.settle >>= fun _ => _) = _
  rw [hsettle]
  rfl

/-- Behind the two dashes of a run, one word after another is a payload. -/
theorem foldlM_payloads (hplace : r.place = .run) (hended : r.optionsEnded = true) {options : Options}
    (hsettle : r.options.settle = .ok options) (ps : List String) :
    ∃ r', ps.foldlM next r = .ok r' ∧ r'.place = .run ∧ r'.front = r.front ∧
      r'.options.settle = .ok options ∧ r'.payloads = r.payloads ++ ps := by
  induction ps generalizing r with
  | nil => exact ⟨r, rfl, hplace, rfl, hsettle, (List.append_nil _).symm⟩
  | cons p ps ih =>
    -- the first payload settles the options, and those behind it find them settled
    have hnext := next_payload hplace hended hsettle p
    obtain ⟨r', hfold, hplace', hfront, hsettle', hpayloads⟩ :=
      ih (r := { r with options, payloads := r.payloads ++ [p] }) hplace hended
        (Options.settle_of_settle hsettle)
    refine ⟨r', ?_, hplace', hfront, hsettle', ?_⟩
    · rw [List.foldlM_cons, hnext]
      exact hfold
    · rw [hpayloads, List.append_assoc, List.singleton_append]

/-- What is understood as a run stands behind `run`, with its options settled. -/
theorem finish_eq_ok {path : Option String} {difficulty : Option UInt32} {tamper : Option UInt64}
    {payloads : List String} :
    r.finish = .ok ⟨path, difficulty, .run tamper payloads⟩ ↔
      r.place = .run ∧ r.payloads = payloads ∧
      ∃ options front, r.options.settle = .ok options ∧ r.front.settle = .ok front ∧
        (options.config <|> front.config) = path ∧
        (options.difficulty <|> front.difficulty) = difficulty ∧ options.tamper = tamper := by
  constructor
  · intro h
    unfold finish at h
    split at h
    next =>
      obtain ⟨_, -, h⟩ := exists_of_bind_eq_ok h
      contradiction
    next =>
      obtain ⟨_, -, h⟩ := exists_of_bind_eq_ok h
      obtain ⟨_, -, h⟩ := exists_of_bind_eq_ok h
      injection h with h
      injection h with _ _ h
      contradiction
    next hplace =>
      obtain ⟨options, hsettle, h⟩ := exists_of_bind_eq_ok h
      obtain ⟨front, hfront, h⟩ := exists_of_bind_eq_ok h
      injection h with h
      injection h with hconfig hdifficulty htask
      injection htask with htamper hpayloads
      exact ⟨hplace, hpayloads, options, front, hsettle, hfront, hconfig, hdifficulty, htamper⟩
    next => contradiction
  · intro h
    obtain ⟨hplace, rfl, options, front, hsettle, hfront, rfl, rfl, rfl⟩ := h
    rw [finish, hplace]
    show r.invoke _ = _
    rw [invoke, hsettle, hfront]
    rfl

end Reading

/-- Two dashes and further words behind a run are further payloads. -/
theorem ofWords_payloads {words : List String} {path : Option String} {difficulty : Option UInt32}
    {tamper : Option UInt64} {payloads : List String} (hdashes : "--" ∉ words)
    (h : Invocation.ofWords words = .ok ⟨path, difficulty, .run tamper payloads⟩)
    (ps : List String) :
    Invocation.ofWords (words ++ "--" :: ps) =
      .ok ⟨path, difficulty, .run tamper (payloads ++ ps)⟩ := by
  obtain ⟨r, hwords, hfinish⟩ := exists_of_bind_eq_ok h
  obtain ⟨hplace, hpayloads, options, front, hsettle, hfront, hconfig, hdifficulty, htamper⟩ :=
    Reading.finish_eq_ok.mp hfinish
  -- the words before the dashes have not ended the options, so the dashes do
  have hended := Reading.optionsEnded_foldlM hdashes hwords
  obtain ⟨r', hfold, hplace', hfront', hsettle', hpayloads'⟩ :=
    Reading.foldlM_payloads (r := { r with optionsEnded := true }) hplace rfl hsettle ps
  have hread : (words ++ "--" :: ps).foldlM Reading.next {} = .ok r' := by
    rw [List.foldlM_append, hwords]
    show ("--" :: ps).foldlM Reading.next r = _
    rw [List.foldlM_cons, Reading.next_dashes hplace hended]
    exact hfold
  rw [Invocation.ofWords, hread]
  refine Reading.finish_eq_ok.mpr ⟨hplace', ?_, options, front, hsettle', ?_, hconfig, hdifficulty, htamper⟩
  · rw [hpayloads', ← hpayloads]
  · rw [hfront']
    exact hfront

/-! ## Option words -/

/-- The options that are given, each in one word with its value. -/
def optionWords (path : Option String) (difficulty : Option UInt32) : List String :=
  (path.map fun path => "--config=" ++ path).toList ++
    (difficulty.map fun d => "--difficulty=" ++ Decimal.text d.toNat).toList

theorem Word.ofText_config (path : String) :
    Word.ofText ("--config=" ++ path) = .long "config" (some path) := by
  unfold Word.ofText
  rw [String.toList_append]
  show Word.long (String.ofList "config".toList) (some (String.ofList path.toList)) = _
  rw [String.ofList_toList, String.ofList_toList]

theorem Word.ofText_difficulty (value : String) :
    Word.ofText ("--difficulty=" ++ value) = .long "difficulty" (some value) := by
  unfold Word.ofText
  rw [String.toList_append]
  show Word.long (String.ofList "difficulty".toList) (some (String.ofList value.toList)) = _
  rw [String.ofList_toList, String.ofList_toList]

/-- The digits of a number are read as the number. -/
theorem signed?_text {n limit : Nat} (h : n < limit) : signed? limit (Decimal.text n) = some n := by
  have htext : (Decimal.text n).toList = Decimal.encode n := String.toList_ofList
  have hread := Decimal.decodeBelow?_encode h
  obtain ⟨d, rest, hdigits⟩ := List.exists_cons_of_ne_nil (Decimal.encode_ne_nil n)
  have hd : Decimal.isDigit d = true :=
    Decimal.isDigit_of_mem_encode (hdigits ▸ List.mem_cons_self)
  rw [signed?, unsigned?, htext, hdigits]
  rw [hdigits] at hread
  -- a digit is no sign, so the two matches fall through
  split
  next hsign =>
    injection hsign with hsign
    rw [hsign] at hd
    exact nomatch hd
  next =>
    split
    next hsign =>
      injection hsign with hsign
      rw [hsign] at hd
      exact nomatch hd
    next => exact hread

theorem Options.name_of_store {o o' : Options} (hpending : o.pending = none) {name : OptionName}
    {value : String} (hstore : o.store name value = .ok o') :
    o.name name (some value) = .ok o' := by
  rw [Options.name, settle, hpending]
  exact hstore

theorem Reading.next_config {o o' : Options} (hpending : o.pending = none) {path : String}
    (hstore : o.store .config path = .ok o') :
    next { options := o } ("--config=" ++ path) = .ok { options := o' } := by
  show free _ _ = _
  rw [free, Word.ofText_config]
  show (o.name .config (some path) >>= fun _ => _) = _
  rw [Options.name_of_store hpending hstore]
  rfl

theorem Reading.next_difficulty {o o' : Options} (hpending : o.pending = none) {value : String}
    (hstore : o.store .difficulty value = .ok o') :
    next { options := o } ("--difficulty=" ++ value) = .ok { options := o' } := by
  show free _ _ = _
  rw [free, Word.ofText_difficulty]
  show (o.name .difficulty (some value) >>= fun _ => _) = _
  rw [Options.name_of_store hpending hstore]
  rfl

/-- The option words are read as the options. -/
theorem foldlM_optionWords {path : Option String} (hpath : path ≠ some "")
    (difficulty : Option UInt32) :
    (optionWords path difficulty).foldlM Reading.next {} =
      .ok { options := { config := path, difficulty } } := by
  have hconfig : (path.map fun path => "--config=" ++ path).toList.foldlM Reading.next {} =
      .ok { options := { config := path } } := by
    cases path with
    | none => rfl
    | some path =>
      have hne : path ≠ "" := fun h => hpath (congrArg some h)
      have hstore : Options.store {} .config path = .ok { config := some path } := if_neg hne
      show (Reading.next {} ("--config=" ++ path) >>= pure) = _
      rw [Reading.next_config rfl hstore]
      rfl
  rw [optionWords, List.foldlM_append, hconfig]
  cases difficulty with
  | none => rfl
  | some d =>
    have hstore : Options.store { config := path } .difficulty (Decimal.text d.toNat) =
        .ok { config := path, difficulty := some d } := by
      have hread : signed? UInt32.size (Decimal.text d.toNat) = some d.toNat := signed?_text d.toNat_lt
      have hfree : ¬ Options.has { config := path } .difficulty = true := Bool.false_ne_true
      rw [Options.store, if_neg hfree]
      simp only [hread, UInt32.ofNat_toNat]
    show (Reading.next { options := { config := path } } ("--difficulty=" ++ Decimal.text d.toNat)
      >>= pure) = _
    rw [Reading.next_difficulty rfl hstore]
    rfl

/-- A run of the options is understood, unless the path is empty. -/
theorem ofWords_optionWords {path : Option String} (hpath : path ≠ some "")
    (difficulty : Option UInt32) :
    Invocation.ofWords (optionWords path difficulty ++ ["run"]) =
      .ok ⟨path, difficulty, .run none []⟩ := by
  rw [Invocation.ofWords, List.foldlM_append, foldlM_optionWords hpath difficulty]
  cases path <;> cases difficulty <;> rfl

theorem dashes_notMem_optionWords (path : Option String) (difficulty : Option UInt32) :
    "--" ∉ optionWords path difficulty ++ ["run"] := by
  have hlong (name value : String) (h : 2 < name.length) : "--" ≠ name ++ value := by
    intro heq
    have hlength := congrArg String.length heq
    rw [String.length_append] at hlength
    have htwo : "--".length = 2 := rfl
    omega
  intro hmem
  rcases List.mem_append.mp hmem with hmem | hmem
  · rcases List.mem_append.mp hmem with hmem | hmem
    · obtain ⟨path, -, heq⟩ := Option.map_eq_some_iff.mp (Option.mem_toList.mp hmem)
      exact hlong "--config=" path (by decide) heq.symm
    · obtain ⟨d, -, heq⟩ := Option.map_eq_some_iff.mp (Option.mem_toList.mp hmem)
      exact hlong "--difficulty=" _ (by decide) heq.symm
  · exact absurd (List.mem_singleton.mp hmem) (by decide)

end MinedChain.Command
