import MinedChain.Json.Value

/-!
# Why JSON is refused

A text is read once, from the front, and the first fault met decides. What is said about a refused text
is left to whoever words it: the words end up in messages and decide nothing.
-/

namespace MinedChain.Json

/-- The kinds of fault that end the reading of a text. -/
inductive Fault where
  /-- No JSON text continues this way. -/
  | malformed
  /-- Well formed so far, but not what is wanted: another kind of value, a number out of range, a
  member missing or given twice. -/
  | unfit
  /-- The text ends too early. -/
  | truncated
deriving DecidableEq, Repr

/-- The words for what is refused. -/
structure Wording where
  /-- The words for a text with a fault. -/
  ofText : Fault → String → String
  /-- The words for a tree that is not of the kind that is wanted. -/
  ofTree : Value → String

/-- Words that say no more than the fault. -/
def Wording.plain : Wording where
  ofText
    | .malformed, _ => "malformed text"
    | .unfit, _ => "unfit value"
    | .truncated, _ => "truncated text"
  ofTree _ := "unfit value"

end MinedChain.Json
