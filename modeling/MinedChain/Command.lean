import MinedChain.Chain.Tamper
import MinedChain.Command.Arguments
import MinedChain.Command.Files
import MinedChain.Command.Row
import MinedChain.Config.Json
import MinedChain.Stateful

/-!
# The command

One run of the command line program, as a function of its words, of the clock and of the files it may
read. The settings are read and checked, a chain is made, payloads are appended, a bit may be flipped,
and what has been made is printed. A run prints piece by piece, and what it has printed stays printed
when it fails later.
-/

namespace MinedChain.Command

/-- What a run depends on besides its words. -/
structure Surroundings where
  /-- The clock, in seconds since the epoch. -/
  now : Int
  /-- The octets of a file, by its path. -/
  read : String → Except ReadFailure Bytes
  /-- The words for refused JSON. -/
  wording : Json.Wording

/-! ## Failures -/

/-- Why a run ends with an error. -/
inductive Failure where
  | reading (path : String) (cause : ReadFailure)
  | config (cause : ConfigError)
  | chain (cause : ChainError)
  | tampering (cause : TamperError)
deriving DecidableEq, Repr

/-- The words of the error behind a failure, below it and indented. -/
def causedBy : Option String → String
  | none => ""
  | some words => "\n\nCaused by:\n    " ++ String.ofList (words.toList.flatMap indent)
where
  /-- Lines behind the first are indented like it. -/
  indent (c : Char) : List Char := if c = '\n' then "\n    ".toList else [c]

namespace Failure

def message : Failure → String
  | reading path _ => "reading config " ++ path
  | config cause => cause.message
  | chain cause => cause.message
  | tampering cause => cause.message

/-- The words of the error behind this one. -/
def source? : Failure → Option String
  | reading _ cause => some cause.message
  | config cause => cause.source?
  | chain cause => cause.source?
  | tampering cause => cause.source?

/-- What is written about a failure. -/
def report (e : Failure) : String := "Error: " ++ e.message ++ causedBy e.source? ++ "\n"

end Failure

/-! ## Settings -/

/-- The settings of a file. -/
def configOfFile (s : Surroundings) (path : String) : Except Failure Config :=
  match s.read path with
  | .error cause => .error (.reading path cause)
  | .ok bs =>
    match Utf8.decode? bs with
    | none => .error (.reading path .notUtf8)
    | some text => (Config.ofText s.wording text).mapError .config

/-- The settings of a run: those of the file, if one is named, with another difficulty, if one is
given. -/
def loadConfig (s : Surroundings) (path : Option String) (difficulty : Option UInt32) :
    Except Failure Config := do
  let loaded ← match path with
    | some path => configOfFile s path
    | none => pure Config.default
  let c := { loaded with difficulty := difficulty.getD loaded.difficulty }
  c.validate.mapError .config
  return c

/-! ## Tasks -/

/-- Appends the payloads one after another, all at the same time. -/
def appendEach (now : Int) : List String → Stateful Chain ChainError Unit
  | [] => pure ()
  | payload :: rest => do
    let _ ← Chain.append (Utf8.encode payload) now
    appendEach now rest

/-- The chain after all payloads have been appended. -/
def appendAll (now : Int) (payloads : List String) (c : Chain) : Except ChainError Chain :=
  (appendEach now payloads).stateAfter c

/-- The chain after a bit has been flipped, if a position for that is given. -/
def tampered (wording : Json.Wording) (tamper : Option UInt64) (c : Chain) : Except TamperError Chain :=
  match tamper with
  | none => .ok c
  | some position => c.tamper wording position

/-- The line that reports the verdict on a chain. -/
def verdictLine (c : Chain) : String :=
  match c.validate.result with
  | .ok () =>
    "valid: " ++ Decimal.text c.length ++ " blocks, tip " ++ Decimal.text c.tip.index.toNat ++ "\n"
  | .error v => "invalid: " ++ v.message ++ "\n"

/-- A part of a run. Its state is what has been printed. -/
abbrev Printing (α : Type) := Stateful String Failure α

/-- Prints a text behind what has been printed. -/
def print (text : String) : Printing Unit := .modify (· ++ text)

/-- Prints the rows of blocks. -/
def printBlocks (bs : List Block) : Printing Unit := print (String.ofList (Row.table bs))

/-- Makes a chain of the settings and does a task with it. -/
def perform (s : Surroundings) (config : Config) : Task → Printing Unit
  | .genesis => do
    let c ← .ofTraced ((Chain.ofConfig config).mapError .chain)
    printBlocks [c.genesis]
  | .run tamper payloads => do
    let made ← .ofTraced ((Chain.ofConfig config).mapError .chain)
    let grown ← .ofResult ((appendAll s.now payloads made).mapError .chain)
    let c ← .ofResult ((tampered s.wording tamper grown).mapError .tampering)
    printBlocks c.blocks
    print (verdictLine c)

/-! ## Runs -/

/-- What a run leaves behind. -/
structure Outcome where
  code : UInt32
  stdout : String
  stderr : String
deriving DecidableEq, Repr

/-- The outcome when nothing has been printed before. An error is reported behind what has been
printed until then. -/
def Printing.outcome (x : Printing Unit) : Outcome :=
  let left := x ""
  match left.result with
  | .ok () => ⟨0, left.state, ""⟩
  | .error e => ⟨1, left.state, e.report⟩

namespace Printing

/-- A part that prints nothing itself decides alone where it fails. -/
theorem outcome_ofTraced_bind {α : Type} (x : Traced Failure α) (k : α → Printing Unit) :
    outcome (Stateful.ofTraced x >>= k) =
      match x.result with
      | .error e => ⟨1, "", e.report⟩
      | .ok a => outcome (k a) := by
  cases h : x.result with
  | error e =>
    have hfails : (Stateful.ofTraced x "").result = .error e := h
    rw [outcome, Stateful.bind_of_error hfails]
    rfl
  | ok a =>
    have hgives : (Stateful.ofTraced x "").result = .ok a := h
    rw [outcome, Stateful.bind_of_ok hgives]
    rfl

theorem outcome_ofResult_ok_bind {α : Type} (a : α) (k : α → Printing Unit) :
    outcome (.ofResult (.ok a) >>= k) = outcome (k a) := rfl

/-- A part that prints nothing can be cut in two. -/
theorem outcome_ofResult_bind {α β : Type} (x : Except Failure α) (f : α → Except Failure β)
    (k : β → Printing Unit) :
    outcome (.ofResult (x >>= f) >>= k) =
      outcome (.ofResult x >>= fun a => .ofResult (f a) >>= k) := by
  cases x with
  | error e => rfl
  | ok a => rfl

theorem outcome_print (text : String) : outcome (print text) = ⟨0, text, ""⟩ := by
  show Outcome.mk 0 ("" ++ text) "" = _
  rw [String.empty_append]

theorem outcome_print_bind_print (text text' : String) :
    outcome (print text >>= fun _ => print text') = ⟨0, text ++ text', ""⟩ := by
  show Outcome.mk 0 ("" ++ text ++ text') "" = _
  rw [String.empty_append]

end Printing

/-- A run of a command line that was understood. -/
def Invocation.run (s : Surroundings) (i : Invocation) : Outcome :=
  Printing.outcome do
    let config ← .ofResult (loadConfig s i.config i.difficulty)
    perform s config i.task

/-- A run of the program, unless its words are refused. -/
def run (s : Surroundings) (words : List String) : Except Refusal Outcome := do
  let i ← Invocation.ofWords words
  return i.run s

end MinedChain.Command
