import MinedChain.Text.Decimal

/-!
# Command-line arguments

The words of a command line are taken one at a time, from the left. Before the subcommand, and after
it, stand options: a long name with its value behind an equals sign or in the next word. Two dashes
alone end the options; after them, and for words that do not begin with a dash, the place decides: a
subcommand is due first, `run` takes payloads, `genesis` takes nothing. A dash alone and the empty
word are ordinary words.

A word that has no place is refused when it is met. An option whose value stands in a word of its own
stays *open* instead: it is settled when the next known option, the next payload or the end of the
line is reached, and only then is a value missed, judged or found to be a second one. The option left
open before the subcommand is settled last, behind everything that follows the subcommand.

An option may stand once before the subcommand and once after it, and then the later one counts.
-/

namespace MinedChain.Command

/-- Why a command line starts nothing. -/
inductive Refusal where
  | helpWanted
  /-- There is neither an option nor a subcommand. -/
  | nothingGiven
  | missingSubcommand
  | unknownSubcommand
  /-- An unknown option, or a word where none is due. -/
  | unexpectedArgument
  /-- An option without a value, or a path that is empty. -/
  | missingValue
  /-- A value that is no number of the option's width. -/
  | unfitValue
  /-- A value for an option that takes none. -/
  | surplusValue
  | repeatedOption
deriving DecidableEq, Repr

/-- What a command line asks for. -/
inductive Task where
  | genesis
  /-- Append the payloads, then flip a bit of the block at a position, if one is given. -/
  | run (tamper : Option UInt64) (payloads : List String)
deriving DecidableEq, Repr

/-- A command line that was understood. -/
structure Invocation where
  config : Option String
  difficulty : Option UInt32
  task : Task
deriving DecidableEq, Repr

/-! ## Words -/

/-- The kinds of word. -/
inductive Word where
  /-- Two dashes alone. -/
  | endOfOptions
  /-- Two dashes and a name, with what follows the first equals sign. -/
  | long (name : String) (value : Option String)
  /-- One dash and a letter, with anything behind it. -/
  | short (letter : Char)
  | plain
deriving DecidableEq

namespace Word

/-- The kind of a word. -/
def ofText (text : String) : Word :=
  match text.toList with
  | ['-', '-'] => endOfOptions
  | '-' :: '-' :: rest =>
    match rest.dropWhile (· ≠ '=') with
    | '=' :: value =>
      long (String.ofList (rest.takeWhile (· ≠ '='))) (some (String.ofList value))
    | _ => long (String.ofList rest) none
  | '-' :: letter :: _ => short letter
  | _ => plain

end Word

/-- The number below `limit` that a text of digits denotes, with an optional plus sign. -/
def unsigned? (limit : Nat) (text : String) : Option Nat :=
  match text.toList with
  | '+' :: digits => Decimal.decodeBelow? limit digits
  | digits => Decimal.decodeBelow? limit digits

/-- The same, and a minus sign before zero. -/
def signed? (limit : Nat) (text : String) : Option Nat :=
  match text.toList with
  | '-' :: digits => Decimal.decodeBelow? 1 digits
  | _ => unsigned? limit text

/-! ## Reading -/

/-- The options that take a value. -/
inductive OptionName where
  | config
  | difficulty
  | tamper
deriving DecidableEq

/-- Where the reading of a command line stands with its subcommand. -/
inductive Place where
  | beforeSubcommand
  | genesis
  | run
  /-- Help is wanted; `subject` says whether on a subcommand that was named. -/
  | help (subject : Bool)
deriving DecidableEq

namespace Place

/-- The option of that name, where it may stand. -/
def option? (place : Place) (name : String) : Option OptionName :=
  if name = "config" then some .config
  else if name = "difficulty" then some .difficulty
  else if name = "tamper" ∧ place = run then some .tamper
  else none

/-- The place after the word that names a subcommand. -/
def ofSubcommand? (name : String) : Option Place :=
  if name = "genesis" then some genesis
  else if name = "run" then some run
  else if name = "help" then some (help false)
  else none

end Place

/-- The options on one side of the subcommand. -/
structure Options where
  config : Option String := none
  difficulty : Option UInt32 := none
  tamper : Option UInt64 := none
  /-- The open option, with its value once that has come. -/
  pending : Option (OptionName × Option String) := none
deriving DecidableEq

namespace Options

/-- Whether the option has been settled. -/
def has (o : Options) : OptionName → Bool
  | .config => o.config.isSome
  | .difficulty => o.difficulty.isSome
  | .tamper => o.tamper.isSome

/-- Settles an option on a value. -/
def store (o : Options) (name : OptionName) (value : String) : Except Refusal Options :=
  if o.has name then .error .repeatedOption
  else
    match name with
    | .config => if value = "" then .error .missingValue else .ok { o with config := some value }
    | .difficulty =>
      match signed? UInt32.size value with
      | some n => .ok { o with difficulty := some (UInt32.ofNat n) }
      | none => .error .unfitValue
    | .tamper =>
      match unsigned? UInt64.size value with
      | some n => .ok { o with tamper := some (UInt64.ofNat n) }
      | none => .error .unfitValue

/-- Settles the open option, if there is one. -/
def settle (o : Options) : Except Refusal Options :=
  match o.pending with
  | none => .ok o
  | some (_, none) => .error .missingValue
  | some (name, some value) => { o with pending := none }.store name value

/-- An option is named: with its value at hand it is settled, and without it is left open. -/
def name (o : Options) (name : OptionName) (value : Option String) : Except Refusal Options := do
  let o ← o.settle
  match value with
  | some value => o.store name value
  | none => return { o with pending := some (name, none) }

/-- Whether no option has been settled. -/
def isEmpty (o : Options) : Bool := !(o.has .config || o.has .difficulty || o.has .tamper)

end Options

/-- Where the reading of a command line stands. -/
structure Reading where
  place : Place := .beforeSubcommand
  /-- The options before the subcommand, once it has been met. -/
  front : Options := {}
  /-- The options on this side of the subcommand. -/
  options : Options := {}
  payloads : List String := []
  optionsEnded : Bool := false
deriving DecidableEq

namespace Reading

/-- A word that stands for itself. -/
def plain (r : Reading) (text : String) : Except Refusal Reading :=
  match r.place with
  | .beforeSubcommand =>
    match Place.ofSubcommand? text with
    | some place =>
      -- the options start afresh, so one given before may be given again
      if r.optionsEnded then .error .unexpectedArgument
      else .ok { r with place, front := r.options, options := {} }
    | none => .error .unknownSubcommand
  | .genesis => .error .unexpectedArgument
  | .run => do
    let options ← r.options.settle
    return { r with options, payloads := r.payloads ++ [text] }
  | .help subject =>
    if ¬subject ∧ (Place.ofSubcommand? text).isSome then .ok { r with place := .help true }
    else .error .unknownSubcommand

/-- Help is wanted, once the open option is settled. -/
def help (r : Reading) : Except Refusal Reading := do
  let _ ← r.options.settle
  .error .helpWanted

/-- A word where options may stand. It is the value of an option that waits for one, unless it looks
like an option itself. -/
def free (r : Reading) (text : String) : Except Refusal Reading :=
  match Word.ofText text with
  | .plain =>
    match r.options.pending with
    | some (name, none) =>
      .ok { r with options := { r.options with pending := some (name, some text) } }
    | _ => r.plain text
  | .endOfOptions => .ok { r with optionsEnded := true }
  | .long "help" none => r.help
  | .long "help" (some _) => .error .surplusValue
  | .long name value =>
    match r.place.option? name with
    | none => .error .unexpectedArgument
    | some name => do
      let options ← r.options.name name value
      return { r with options }
  | .short letter => if letter = 'h' then r.help else .error .unexpectedArgument

/-- The next word. -/
def next (r : Reading) (text : String) : Except Refusal Reading :=
  match r.place, r.optionsEnded with
  -- help takes every word as a subject
  | .help _, _ => r.plain text
  | _, true => r.plain text
  | _, false => r.free text

/-- The end of the command line after the subcommand of a task. The options behind the subcommand are
settled first, and count where an option was given on both sides. -/
def invoke (r : Reading) (task : Options → Task) : Except Refusal Invocation := do
  let options ← r.options.settle
  let front ← r.front.settle
  return ⟨options.config <|> front.config, options.difficulty <|> front.difficulty, task options⟩

/-- The end of the command line. -/
def finish (r : Reading) : Except Refusal Invocation :=
  match r.place with
  | .beforeSubcommand => do
    let options ← r.options.settle
    .error (if options.isEmpty then .nothingGiven else .missingSubcommand)
  | .genesis => r.invoke fun _ => .genesis
  | .run => r.invoke fun options => .run options.tamper r.payloads
  | .help _ => .error .helpWanted

end Reading

/-- What the words of a command line ask for. -/
def Invocation.ofWords (words : List String) : Except Refusal Invocation := do
  let r ← words.foldlM Reading.next {}
  r.finish

end MinedChain.Command
