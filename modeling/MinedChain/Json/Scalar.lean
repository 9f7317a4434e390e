import MinedChain.Json.Number
import MinedChain.Json.Quoted

/-!
# Scalar values that are used

A value of the wrong kind is unfit, but first it is read: if it is a broken scalar, that fault comes
first. Containers are not looked into.
-/

namespace MinedChain.Json

/-- The fault of a reading, or `unfit` when the reading went well. -/
def faultOrUnfit {α : Type} : Except Fault α → Fault
  | .ok _ => .unfit
  | .error e => e

/-- Why the value at the front of a text is refused where another kind is wanted. -/
def wrongKind : List Char → Fault
  | [] => .truncated
  | 'n' :: text => faultOrUnfit (expect ['u', 'l', 'l'] text)
  | 't' :: text => faultOrUnfit (expect ['r', 'u', 'e'] text)
  | 'f' :: text => faultOrUnfit (expect ['a', 'l', 's', 'e'] text)
  | '"' :: text => faultOrUnfit (Quoted.read text)
  | '[' :: _ => .unfit
  | '{' :: _ => .unfit
  | c :: text =>
    if c = '-' ∨ Decimal.isDigit c then faultOrUnfit (Number.read (c :: text)) else .malformed

/-- A natural number below `limit`. -/
def natural (limit : Nat) : Reader Nat := fun text => do
  let c ← solid text
  if c.value = '-' ∨ Decimal.isDigit c.value then
    let r ← Number.read (c.value :: c.rest)
    match r.value with
    | some n => if n < limit then return (c.putBack r).map fun _ => n else .error .unfit
    | none => .error .unfit
  else .error (wrongKind (c.value :: c.rest))

/-- An octet. -/
def octet : Reader UInt8 := fun text => (natural UInt8.size text).map (Read.map UInt8.ofNat)

/-- A word of 32 bits. -/
def word32 : Reader UInt32 := fun text => (natural UInt32.size text).map (Read.map UInt32.ofNat)

/-- A word of 64 bits. -/
def word64 : Reader UInt64 := fun text => (natural UInt64.size text).map (Read.map UInt64.ofNat)

/-- A string. -/
def string : Reader String := fun text => do
  let c ← solid text
  if c.value = '"' then return c.andThen (← Quoted.read c.rest)
  else .error (wrongKind (c.value :: c.rest))

/-- `true` or `false`. -/
def boolean : Reader Bool := fun text => do
  let c ← solid text
  match c.value with
  | 't' => return (c.followed (← expect ['r', 'u', 'e'] c.rest)).map fun _ => true
  | 'f' => return (c.followed (← expect ['a', 'l', 's', 'e'] c.rest)).map fun _ => false
  | other => .error (wrongKind (other :: c.rest))

/-- `null`, or a value of the given kind. -/
def optional {α : Type} (read : Reader α) : Reader (Option α) := fun text => do
  let c ← solid text
  if c.value = 'n' then return (c.followed (← expect ['u', 'l', 'l'] c.rest)).map fun _ => none
  else return (← read text).map some

end MinedChain.Json
