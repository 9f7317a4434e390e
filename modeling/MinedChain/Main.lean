import MinedChain.Command
import Std.Time.DateTime.Timestamp

/-!
# The program

Looks at the clock and reads the settings file, if one is named, and writes what the run leaves
behind. Everything in between is `Command.run`.
-/

namespace MinedChain.Program

open MinedChain.Command

/-- The number of a system error, which may come negated. -/
def errorNumber (code : UInt32) : UInt32 := min code (0 - code)

/-- The contents of a file, or why it cannot be read. -/
def readOctets (path : String) : IO (Except ReadFailure Bytes) := do
  try
    let contents ← IO.FS.readBinFile path
    return .ok contents.toList
  catch
    | .noFileOrDirectory .. => return .error .missing
    | .inappropriateType _ code _ =>
      return .error (if errorNumber code = 20 then .notDirectory else .directory)
    | e@(.invalidArgument _ code _) =>
      return .error (if errorNumber code = 36 then .nameTooLong else .other (toString e))
    | e => return .error (.other (toString e))

/-- What is written, and the exit code, when the words start nothing. -/
def refuse (refusal : Refusal) : IO UInt32 := do
  let usage := "Usage: [--config PATH] [--difficulty N] (genesis | run [--tamper N] [PAYLOADS]...)"
  match refusal with
  | .helpWanted =>
    IO.println usage
    return 0
  | _ =>
    IO.eprintln usage
    return 2

/-- One run with the words of the command line. -/
def run (words : List String) : IO UInt32 := do
  match Invocation.ofWords words with
  | .error refusal => refuse refusal
  | .ok invocation =>
    let clock ← Std.Time.Timestamp.now
    let contents ← match invocation.config with
      | some path => readOctets path
      | none => pure (.error .missing)
    let outcome := invocation.run ⟨clock.toSecondsSinceUnixEpoch.val, fun _ => contents, .plain⟩
    IO.print outcome.stdout
    IO.eprint outcome.stderr
    return outcome.code

end MinedChain.Program

def main (words : List String) : IO UInt32 := MinedChain.Program.run words
