import MinedChain.Json.Reader
import MinedChain.Text.Hex

/-!
# JSON strings

The readers here start after the opening quotation mark and stop after the closing one. A string that
is used must be Unicode text: a surrogate escape stands only as one half of a pair. A string that is
skipped is held to the same escapes, but its surrogates are not looked at.
-/

namespace MinedChain.Json.Quoted

/-! ## Escapes -/

/-- The character that a letter after a reverse solidus stands for. -/
def ofLetter? (c : Char) : Option Char :=
  if c = '"' then some '"'
  else if c = '\\' then some '\\'
  else if c = '/' then some '/'
  else if c = 'b' then some '\x08'
  else if c = 'f' then some '\x0c'
  else if c = 'n' then some '\n'
  else if c = 'r' then some '\r'
  else if c = 't' then some '\t'
  else none

/-- The octets that a text takes in UTF-8. -/
def utf8Size (text : List Char) : Nat := text.foldl (fun n c => n + c.utf8Size) 0

/-- Four hexadecimal digits. A text with fewer than four octets left is truncated. -/
def hexWord : Reader Nat
  | a :: b :: c :: d :: rest =>
    match Hex.value? a, Hex.value? b, Hex.value? c, Hex.value? d with
    | some a, some b, some c, some d =>
      .ok ⟨((a * 16 + b) * 16 + c) * 16 + d, rest, by simp only [List.length_cons]; omega⟩
    | _, _, _, _ => .error .malformed
  -- fewer than four characters may still be four octets or more
  | text => if utf8Size text < 4 then .error .truncated else .error .malformed

/-- The first half of a surrogate pair. -/
def isHighSurrogate (n : Nat) : Bool := 0xD800 ≤ n && n ≤ 0xDBFF

/-- The second half of a surrogate pair. -/
def isLowSurrogate (n : Nat) : Bool := 0xDC00 ≤ n && n ≤ 0xDFFF

/-- The character that a surrogate pair stands for. -/
def ofSurrogates (high low : Nat) : Char :=
  Char.ofNat (0x10000 + (high - 0xD800) * 0x400 + (low - 0xDC00))

/-- The low surrogate that has to follow a high one: a reverse solidus, a `u` and four digits. -/
def lowSurrogate : Reader Nat
  | [] => .error .truncated
  | '\\' :: [] => .error .truncated
  | '\\' :: 'u' :: text => do
    let r ← hexWord text
    if isLowSurrogate r.value then return r.succ.succ else .error .malformed
  | _ => .error .malformed

/-- A character given by its number, after `\u`: one word, or a surrogate pair. -/
def unicodeEscape : Reader Char := fun text => do
  let r ← hexWord text
  if isLowSurrogate r.value then .error .malformed
  else if isHighSurrogate r.value then
    let s ← lowSurrogate r.rest
    return (r.andThen s).map (ofSurrogates r.value)
  else return r.map Char.ofNat

/-- What follows a reverse solidus, with `unicode` as the reader after `\u`. -/
def escaped (unicode : Reader Char) : Reader Char
  | [] => .error .truncated
  | 'u' :: text => do
    let r ← unicode text
    return r.succ
  | c :: text =>
    match ofLetter? c with
    | some d => .ok ((Tail.all text).read d)
    | none => .error .malformed

/-! ## Strings -/

/-- The characters up to the closing quotation mark, after those in `front`, which are held in
reverse. -/
def body (unicode : Reader Char) (front : List Char) {bound : Nat} (text : List Char)
    (h : text.length ≤ bound) : Except Fault (Read (List Char) bound) :=
  match text with
  | [] => .error .truncated
  | c :: text =>
    if c = '"' then .ok ⟨front.reverse, text, h⟩
    else if c = '\\' then
      match escaped unicode text with
      | .error e => .error e
      | .ok r => body unicode (r.value :: front) r.rest (Nat.le_of_lt (Nat.lt_trans r.shorter h))
    else if c.toNat < 0x20 then .error .malformed
    else body unicode (c :: front) text (Nat.le_of_lt h)
termination_by text.length
decreasing_by
  · exact Nat.lt_succ_of_lt r.shorter
  · exact Nat.lt_succ_self _

/-- A string that is used. -/
def read : Reader String := fun text => do
  let r ← body unicodeEscape [] text (Tail.all text).le
  return r.map String.ofList

/-- A string that is skipped. -/
def skip : Reader Unit := fun text => do
  let r ← body (fun text => (hexWord text).map (Read.map fun _ => ' ')) [] text (Tail.all text).le
  return r.map fun _ => ()

end MinedChain.Json.Quoted
