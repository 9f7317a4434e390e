import MinedChain.Json.Reader
import MinedChain.Text.Decimal

/-!
# JSON numbers

A number is an optional minus sign, an integer without leading zero, and optionally a fraction and an
exponent. Only a natural number below 2^64, written without fraction and exponent, has a value of its
own here; any other number is *inexact*. An inexact number is malformed when it is too large for a
binary floating-point number of 64 bits, by the arithmetic described at `isFinite`.

A number that is only skipped is checked for its form alone.
-/

namespace MinedChain.Json.Number

/-! ## Range of inexact numbers -/

/-- The nearest number with at most 53 significant bits; a tie goes to the even neighbour. -/
def roundTo53Bits (n : Nat) : Nat :=
  let drop := n.log2 + 1 - 53
  let unit := Nat.pow 2 drop
  let q := n / unit
  let r := n % unit
  if 2 * r > unit ∨ (2 * r = unit ∧ q % 2 = 1) then (q + 1) * unit else q * unit

/-- Appends digits to a significand while the result stays below 2^64; gives the significand and the
digits that were left. -/
def absorb (significand : Nat) : List Char → Nat × List Char
  | [] => (significand, [])
  | c :: rest =>
    let next := Decimal.append significand c
    if next < UInt64.size then absorb next rest else (significand, c :: rest)

/-- Whether the number `significand * 10 ^ exponent` can be held: both factors are rounded to 53
bits, and their rounded product stays below 2^1024. Powers of ten above 10^308 cannot be held. -/
def isFinite (significand : Nat) (exponent : Int) : Bool :=
  -- a significand below 2^64 can be held, and a negative exponent makes it smaller
  if exponent < 0 then true
  else if exponent > 308 then significand = 0
  else
    roundTo53Bits (roundTo53Bits significand * roundTo53Bits (Nat.pow 10 exponent.toNat))
      < Nat.pow 2 1024

/-- The parts of a number's text: digits before the point, digits after it, explicit exponent. -/
structure Parts where
  integer : List Char
  fraction : List Char
  exponent : Int

/-- The greatest exponent that is told apart from those beyond it. A number with such an exponent is
too large or practically zero, however many digits stand before it. -/
def maxExponent : Nat := 2147483647

/-- The integer digits as a number below 2^64, unless a fraction or an exponent is written. -/
def Parts.word? (p : Parts) (isWhole : Bool) : Option Nat :=
  if isWhole then Decimal.valueBelow? UInt64.size p.integer else none

/-- Whether a number of these parts can be held. Integer digits that find no room in the significand
raise the exponent, fraction digits that do find room lower it, and those that do not are dropped. -/
def Parts.isFinite (p : Parts) : Bool :=
  let (whole, unread) := absorb 0 p.integer
  let (significand, dropped) := absorb whole p.fraction
  Number.isFinite significand
    (unread.length - (p.fraction.length - dropped.length : Nat) + p.exponent)

/-! ## Form -/

/-- The digits at the front of a text, and the text after them. -/
def spanDigits (text : List Char) : List Char × List Char :=
  (text.takeWhile Decimal.isDigit, text.dropWhile Decimal.isDigit)

theorem length_spanDigits_le (text : List Char) : (spanDigits text).2.length ≤ text.length :=
  (List.dropWhile_sublist Decimal.isDigit).length_le

/-- A non-empty run of digits. `missing` is the fault when the text ends where a digit should be. -/
def digits (missing : Fault) : Reader (List Char)
  | [] => .error missing
  | c :: text =>
    if Decimal.isDigit c then
      .ok ⟨c :: (spanDigits text).1, (spanDigits text).2,
        Nat.lt_succ_of_le (length_spanDigits_le text)⟩
    else .error .malformed

/-- An integer: a run of digits that does not begin with a zero before another digit. -/
def integer (missing : Fault) : Reader (List Char) := fun text => do
  let r ← digits missing text
  match r.value with
  | '0' :: _ :: _ => .error .malformed
  | _ => return r

/-- The digits after a point, or none where no point stands. -/
def fraction (missing : Fault) : (text : List Char) → Except Fault (List Char × Tail text.length)
  | '.' :: text => do
    let r ← digits missing text
    return (r.value, r.succ.tail)
  | text => return ([], Tail.all text)

/-- The digits of an exponent after its sign. -/
def signedDigits (missing : Fault) : Reader Int
  | '-' :: text => do
    let r ← digits missing text
    return (r.map fun ds => -(Decimal.valueUpTo maxExponent ds : Int)).succ
  | '+' :: text => do
    let r ← digits missing text
    return (r.map fun ds => (Decimal.valueUpTo maxExponent ds : Int)).succ
  | text => do
    let r ← digits missing text
    return r.map fun ds => (Decimal.valueUpTo maxExponent ds : Int)

/-- The value of an exponent, or nothing where none stands. -/
def exponent (missing : Fault) : (text : List Char) → Except Fault (Option Int × Tail text.length)
  | [] => return (none, Tail.all [])
  | c :: text =>
    if c = 'e' ∨ c = 'E' then do
      let r ← signedDigits missing text
      return (some r.value, r.succ.tail)
    else return (none, Tail.all (c :: text))

/-- The text of a number after its sign, given by its parts; the last component says whether it is
written as an integer. -/
def unsignedParts (missing : Fault) : Reader (Parts × Bool) := fun text => do
  let i ← integer missing text
  let (f, afterFraction) ← fraction missing i.rest
  let (e, afterExponent) ← exponent missing afterFraction.rest
  return (i.followed (afterFraction.followed afterExponent)).map fun digits =>
    (⟨digits, f, e.getD 0⟩, f.isEmpty && e.isNone)

/-- The value of a number that is used: a natural number below 2^64, or nothing when it is inexact. -/
def read : Reader (Option Nat)
  | '-' :: text => do
    let r ← unsignedParts .truncated text
    let (parts, isWhole) := r.value
    if (parts.word? isWhole).isSome || parts.isFinite then
      return (r.map fun _ => none).succ
    else .error .malformed
  | text => do
    let r ← unsignedParts .truncated text
    let (parts, isWhole) := r.value
    match parts.word? isWhole with
    | some n => return r.map fun _ => some n
    | none => if parts.isFinite then return r.map fun _ => none else .error .malformed

/-- A number that is skipped: only its form counts, and one that breaks off is malformed. -/
def skip : Reader Unit
  | '-' :: text => do
    let r ← unsignedParts .malformed text
    return (r.map fun _ => ()).succ
  | text => do
    let r ← unsignedParts .malformed text
    return r.map fun _ => ()

end MinedChain.Json.Number
