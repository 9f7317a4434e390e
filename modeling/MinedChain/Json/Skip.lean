import MinedChain.Json.Number
import MinedChain.Json.Quoted

/-!
# Skipped values

A value that nobody asks for is checked for its form and forgotten. It may be nested to any depth: the
containers that are open stand in a list, and every step uses up at least one character.
-/

namespace MinedChain.Json.Skip

/-! ## Pieces -/

/-- A member's name and the colon after it. -/
def name : Reader Unit := fun text => do
  let q ← mark '"' text
  let r ← Quoted.skip q.rest
  let c ← mark ':' r.rest
  return q.andThen (r.andThen c)

/-- A value that opens no container. -/
def scalar : Reader Unit
  | [] => .error .truncated
  | 'n' :: text => return (← expect ['u', 'l', 'l'] text).read ()
  | 't' :: text => return (← expect ['r', 'u', 'e'] text).read ()
  | 'f' :: text => return (← expect ['a', 'l', 's', 'e'] text).read ()
  | '"' :: text => return (← Quoted.skip text).succ
  | c :: text =>
    if c = '-' ∨ Decimal.isDigit c then Number.skip (c :: text) else .error .malformed

/-! ## Steps -/

/-- A container that is open. -/
inductive Container where
  | array
  | object
deriving DecidableEq

/-- The character that closes the container. -/
def Container.closer : Container → Char
  | array => ']'
  | object => '}'

/-- The container that a character opens. -/
def Container.ofOpener? (c : Char) : Option Container :=
  if c = '[' then some array else if c = '{' then some object else none

/-- Where the reading of a value stands. -/
structure State where
  /-- Whether a value has to come next, and not a comma or the end of a container. -/
  wantsValue : Bool
  /-- The open containers, innermost first. -/
  opened : List Container

/-- What comes after the comma, or after the opening of a non-empty container: in an object, a
member's name is read before its value is due. -/
def item (container : Container) (opened : List Container) (text : List Char) :
    Except Fault (State × Tail text.length) :=
  match container with
  | .array => return (⟨true, .array :: opened⟩, Tail.all text)
  | .object => return (⟨true, .object :: opened⟩, (← name text).tail)

/-- What comes after the opening of a container: its end, or its first item. -/
def first (container : Container) (opened : List Container) (text : List Char) :
    Except Fault (State × Tail text.length) := do
  let c ← solid text
  if c.value = container.closer then return (⟨false, opened⟩, c.tail)
  else item container opened text

/-- Where a value has to come: a scalar, or the opening of a container with what comes after it. -/
def value (opened : List Container) : Reader State := fun text => do
  let c ← solid text
  match Container.ofOpener? c.value with
  | some container =>
    let (s, t) ← first container opened c.rest
    return (c.followed t).map fun _ => s
  | none =>
    let r ← scalar (c.value :: c.rest)
    return (c.putBack r).map fun _ => ⟨false, opened⟩

/-- Where a value has ended inside a container: the end of the container, or a comma and the next
item. -/
def separator (container : Container) (opened : List Container) : Reader State := fun text => do
  let c ← solid text
  if c.value = container.closer then return c.map fun _ => ⟨false, opened⟩
  else if c.value = ',' then
    let (s, t) ← item container opened c.rest
    return (c.followed t).map fun _ => s
  else .error .malformed

/-- The rest of a value, from the given state. -/
def finish (s : State) {bound : Nat} (text : List Char) (h : text.length ≤ bound) :
    Except Fault (Tail bound) :=
  match s with
  | ⟨false, []⟩ => .ok ⟨text, h⟩
  | ⟨true, opened⟩ =>
    match value opened text with
    | .error e => .error e
    | .ok r => finish r.value r.rest (Nat.le_trans (Nat.le_of_lt r.shorter) h)
  | ⟨false, container :: opened⟩ =>
    match separator container opened text with
    | .error e => .error e
    | .ok r => finish r.value r.rest (Nat.le_trans (Nat.le_of_lt r.shorter) h)
termination_by text.length
decreasing_by all_goals exact r.shorter

/-- A value of any kind. -/
def read : Reader Unit := fun text => do
  let r ← value [] text
  let t ← finish r.value r.rest (Tail.all r.rest).le
  return (r.followed t).map fun _ => ()

end MinedChain.Json.Skip
